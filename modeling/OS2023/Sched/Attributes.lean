import Mathlib.Data.Int.Order.Basic
import Mathlib.Order.Lattice
import Mathlib.Tactic.Common

/-!
# Policies and priorities

The scheduling attributes of a task in `3/20193018_PLUS-1/core.c`: what `sched_fork`
gives to a child, and how `set_user_nice`, `__sched_setscheduler` and
`rt_mutex_setprio` change them. A task reports `policy`, `rt_priority` and its nice
value; the scheduler goes by `prio` and `sched_class`. The changed `sched_fork` sets
the former and the latter apart.
-/

namespace OS2023.Sched.Attributes

/-! ## Tasks -/

inductive Policy where
  | normal
  | fifo
  | rr
  | batch
  | idle
  | deadline
deriving DecidableEq

inductive SchedClass where
  | fair
  | rt
  | dl
deriving DecidableEq

structure Task where
  policy : Policy
  staticPrio : ℤ
  rtPriority : ℕ
  prio : ℤ
  normalPrio : ℤ
  schedClass : SchedClass
  schedResetOnFork : Bool
  piTopTask : Option ℕ
deriving DecidableEq

/-! ## What comes from other files -/

/-- The header of the scheduler, the headers with the priorities and `fork.c` are not in
the repository. The numbers are those of the table above `task_prio` and of the comment in
`can_nice`; `copyProcess` is the copy of a task that `sched_fork` is called with, for which
nobody waits yet. -/
structure Header where
  maxRtPrio : ℤ
  maxDlPrio : ℤ
  minNice : ℤ
  maxNice : ℤ
  niceWidth : ℤ
  fairPolicy : Policy → Bool
  rtPolicy : Policy → Bool
  dlPolicy : Policy → Bool
  idlePolicy : Policy → Bool
  rtPrio : ℤ → Bool
  dlPrio : ℤ → Bool
  niceToPrio : ℤ → ℤ
  prioToNice : ℤ → ℤ
  niceToRlimit : ℤ → ℤ
  copyProcess : Task → Task
  maxRtPrio_eq : maxRtPrio = 100
  maxDlPrio_eq : maxDlPrio = 0
  minNice_eq : minNice = -20
  maxNice_eq : maxNice = 19
  fair_normal : fairPolicy .normal = true
  not_rt_of_fair : ∀ policy, fairPolicy policy = true → rtPolicy policy = false
  not_dl_of_fair : ∀ policy, fairPolicy policy = true → dlPolicy policy = false
  rtPolicy_iff : ∀ policy, rtPolicy policy = true ↔ policy = .fifo ∨ policy = .rr
  dlPolicy_iff : ∀ policy, dlPolicy policy = true ↔ policy = .deadline
  idlePolicy_iff : ∀ policy, idlePolicy policy = true ↔ policy = .idle
  /-- The deadline tasks are included. -/
  rtPrio_iff : ∀ prio, rtPrio prio = true ↔ prio < maxRtPrio
  dlPrio_iff : ∀ prio, dlPrio prio = true ↔ prio < maxDlPrio
  niceToPrio_eq : ∀ nice, niceToPrio nice = nice + 120
  prioToNice_niceToPrio : ∀ nice, prioToNice (niceToPrio nice) = nice
  /-- A nice value in `[19, -20]` as a limit in `[1, 40]`. -/
  niceToRlimit_eq : ∀ nice, niceToRlimit nice = maxNice - nice + 1
  copyProcess_eq : ∀ p, copyProcess p = { p with piTopTask := none }

variable (h : Header)

@[simp] theorem Header.rtPolicy_fifo : h.rtPolicy .fifo = true :=
  (h.rtPolicy_iff _).mpr (.inl rfl)

@[simp] theorem Header.rtPolicy_rr : h.rtPolicy .rr = true :=
  (h.rtPolicy_iff _).mpr (.inr rfl)

@[simp] theorem Header.rtPolicy_normal : h.rtPolicy .normal = false :=
  h.not_rt_of_fair _ h.fair_normal

@[simp] theorem Header.dlPolicy_fifo : h.dlPolicy .fifo = false := by
  rw [← Bool.not_eq_true, h.dlPolicy_iff]
  decide

@[simp] theorem Header.dlPolicy_rr : h.dlPolicy .rr = false := by
  rw [← Bool.not_eq_true, h.dlPolicy_iff]
  decide

@[simp] theorem Header.idlePolicy_fifo : h.idlePolicy .fifo = false := by
  rw [← Bool.not_eq_true, h.idlePolicy_iff]
  decide

@[simp] theorem Header.dlPolicy_normal : h.dlPolicy .normal = false :=
  h.not_dl_of_fair _ h.fair_normal

@[simp] theorem Header.copyProcess_piTopTask (p : Task) :
    (h.copyProcess p).piTopTask = none := by
  rw [h.copyProcess_eq]

/-! ## Priorities -/

def taskNice (p : Task) : ℤ :=
  h.prioToNice p.staticPrio

/-- `__normal_prio` -/
def normalPrioOf (policy : Policy) (rtPriority : ℕ) (nice : ℤ) : ℤ :=
  if h.dlPolicy policy then h.maxDlPrio - 1
  else if h.rtPolicy policy then h.maxRtPrio - 1 - rtPriority
  else h.niceToPrio nice

/-- `normal_prio` -/
def normalPrio (p : Task) : ℤ :=
  normalPrioOf h p.policy p.rtPriority (taskNice h p)

/-- The class that belongs to a priority. -/
def classOf (prio : ℤ) : SchedClass :=
  if h.dlPrio prio then .dl else if h.rtPrio prio then .rt else .fair

/-- `__setscheduler_prio` -/
def setschedulerPrio (p : Task) (prio : ℤ) : Task :=
  { p with schedClass := classOf h prio, prio := prio }

/-- `__rt_effective_prio`, for the priority of the task that is to be boosted for. -/
def rtEffectivePrio (donor : Option ℤ) (prio : ℤ) : ℤ :=
  match donor with
  | some d => min prio d
  | none => prio

/-! ## Changes -/

inductive Errno where
  | einval
  | eperm
  | ebusy
  | eagain
  | other (code : ℕ)
deriving DecidableEq

/-- `sched_fork`, for the copy `p` of the running task. -/
def schedFork (current p : Task) : Except Errno Task :=
  let p := { p with prio := current.normalPrio }
  let p :=
    if p.schedResetOnFork then
      let p :=
        if h.dlPolicy p.policy || h.rtPolicy p.policy then
          { p with policy := .normal, staticPrio := h.niceToPrio 0, rtPriority := 0 }
        else if h.prioToNice p.staticPrio < 0 then { p with staticPrio := h.niceToPrio 0 }
        else p
      { p with prio := p.staticPrio, normalPrio := p.staticPrio, schedResetOnFork := false }
    else p
  -- the modified code
  let p := { p with policy := .fifo, prio := h.niceToPrio (-30), rtPriority := 99 }
  if h.dlPrio p.prio then .error .eagain
  else if h.rtPrio p.prio then .ok { p with schedClass := .rt }
  else .ok { p with schedClass := .fair }

def setUserNice (p : Task) (nice : ℤ) : Task :=
  if taskNice h p = nice ∨ nice < h.minNice ∨ nice > h.maxNice then p
  else if h.dlPolicy p.policy || h.rtPolicy p.policy then { p with staticPrio := h.niceToPrio nice }
  else
    let p := { p with staticPrio := h.niceToPrio nice }
    -- `effective_prio`
    let p := { p with normalPrio := normalPrio h p }
    if h.rtPrio p.prio then p else { p with prio := p.normalPrio }

/-- `rt_mutex_setprio`, where `donor` is `pi_task` with its priority. -/
def rtMutexSetprio (p : Task) (donor : Option (ℕ × ℤ)) (isIdle : Bool) : Task :=
  let prio := rtEffectivePrio (donor.map Prod.snd) p.normalPrio
  let p' := { p with piTopTask := donor.map Prod.fst }
  if prio = p.prio ∧ h.dlPrio prio = false then p'
  else if isIdle then p'
  else setschedulerPrio h p' prio

/-! ## Requests -/

/-- The argument `policy`, where `SETPARAM_POLICY` keeps the policy of the task. -/
inductive PolicyArg where
  | setparam
  | policy (policy : Policy)
  | invalid
deriving DecidableEq

/-- The bits of `sched_flags`. -/
structure Flags where
  resetOnFork : Bool
  keepPolicy : Bool
  keepParams : Bool
  utilClamp : Bool
  sugov : Bool
  unknown : Bool
deriving DecidableEq

structure Attr where
  schedPolicy : PolicyArg
  schedFlags : Flags
  schedNice : ℤ
  schedPriority : ℕ
deriving DecidableEq

/-- What the checks ask the rest of the kernel about the caller and the task. -/
structure Context where
  capSysNice : Bool
  rlimitNice : ℕ
  rlimitRtprio : ℕ
  sameOwner : Bool
  security : Option Errno
  uclampValidate : Option Errno
  checkparamDl : Bool
deriving DecidableEq

/-- What the section under the lock asks. -/
structure LockContext where
  isStop : Bool
  dlParamChanged : Bool
  groupDenies : Bool
  spanDenies : Bool
  dlOverflow : Bool
deriving DecidableEq

def canNice (ctx : Context) (nice : ℤ) : Bool :=
  h.niceToRlimit nice ≤ ctx.rlimitNice || ctx.capSysNice

/-- The part of the checks that a caller without `CAP_SYS_NICE` has to pass. -/
def deniesUnprivileged (ctx : Context) (p : Task) (attr : Attr) (policy : Policy)
    (resetOnFork : Bool) : Bool :=
  (h.fairPolicy policy && attr.schedNice < taskNice h p && !canNice h ctx attr.schedNice) ||
  (h.rtPolicy policy && policy != p.policy && ctx.rlimitRtprio == 0) ||
  (h.rtPolicy policy && attr.schedPriority > p.rtPriority &&
    attr.schedPriority > ctx.rlimitRtprio) ||
  h.dlPolicy policy ||
  (h.idlePolicy p.policy && !h.idlePolicy policy && !canNice h ctx (taskNice h p)) ||
  !ctx.sameOwner ||
  (p.schedResetOnFork && !resetOnFork)

/-- What the checks leave in the variables; `keep` is `oldpolicy != -1`. -/
structure Checked where
  policy : Policy
  keep : Bool
  resetOnFork : Bool
deriving DecidableEq

/-- The policy that the request stands for. -/
def resolve (p : Task) (attr : Attr) : Except Errno Checked :=
  match attr.schedPolicy with
  | .setparam => .ok ⟨p.policy, true, p.schedResetOnFork⟩
  | .policy policy => .ok ⟨policy, false, attr.schedFlags.resetOnFork⟩
  | .invalid => .error .einval

/-- `if (retval) return retval;` -/
def raise : Option Errno → Except Errno Unit
  | some e => .error e
  | none => .ok ()

/-- The checks. -/
def verify (ctx : Context) (p : Task) (attr : Attr) (user : Bool) (c : Checked) :
    Except Errno Checked :=
  if attr.schedFlags.unknown then .error .einval
  else if (attr.schedPriority : ℤ) > h.maxRtPrio - 1 then .error .einval
  else if h.dlPolicy c.policy && !ctx.checkparamDl ||
      h.rtPolicy c.policy != (attr.schedPriority != 0) then
    .error .einval
  else if user && !ctx.capSysNice &&
      deniesUnprivileged h ctx p attr c.policy c.resetOnFork then
    .error .eperm
  else if user && attr.schedFlags.sugov then .error .einval
  else do
    raise (if user then ctx.security else none)
    raise (if attr.schedFlags.utilClamp then ctx.uclampValidate else none)
    return c

/-- `__sched_setscheduler` up to `task_rq_lock`. -/
def check (ctx : Context) (p : Task) (attr : Attr) (user : Bool) : Except Errno Checked := do
  let c ← resolve p attr
  verify h ctx p attr user c

/-- There is something to change. -/
def changes (lock : LockContext) (p : Task) (attr : Attr) (policy : Policy) : Bool :=
  policy != p.policy ||
  (h.fairPolicy policy && attr.schedNice != taskNice h p) ||
  (h.rtPolicy policy && attr.schedPriority != p.rtPriority) ||
  (h.dlPolicy policy && lock.dlParamChanged) ||
  attr.schedFlags.utilClamp

/-- `SETPARAM_POLICY` stands for the policy that the task has. -/
def PolicyArg.orElse (arg : PolicyArg) (policy : Policy) : Policy :=
  match arg with
  | .policy policy => policy
  | _ => policy

/-- `__setscheduler_params` -/
def setschedulerParams (p : Task) (attr : Attr) : Task :=
  let policy := attr.schedPolicy.orElse p.policy
  let p := { p with policy := policy }
  let p :=
    if !h.dlPolicy policy && h.fairPolicy policy then
      { p with staticPrio := h.niceToPrio attr.schedNice }
    else p
  let p := { p with rtPriority := attr.schedPriority }
  { p with normalPrio := normalPrio h p }

/-- How the section under the lock ends. -/
inductive Locked where
  | error (e : Errno)
  | recheck
  /-- Nothing but the flag is stored. -/
  | kept (p : Task)
  | changed (p : Task)
deriving DecidableEq

/-- `__sched_setscheduler` from `task_rq_lock` on. -/
def locked (lock : LockContext) (donor : Option ℤ) (p : Task) (attr : Attr) (user pi : Bool)
    (c : Checked) : Locked :=
  if lock.isStop then .error .einval
  else if !changes h lock p attr c.policy then
    .kept { p with schedResetOnFork := c.resetOnFork }
  else if user && h.rtPolicy c.policy && lock.groupDenies then .error .eperm
  else if user && h.dlPolicy c.policy && !attr.schedFlags.sugov && lock.spanDenies then
    .error .eperm
  else if c.keep && c.policy != p.policy then .recheck
  else if (h.dlPolicy c.policy || h.dlPrio p.prio) && lock.dlOverflow then .error .ebusy
  else
    let p := { p with schedResetOnFork := c.resetOnFork }
    let newprio := normalPrioOf h c.policy attr.schedPriority attr.schedNice
    let newprio := if pi then rtEffectivePrio donor newprio else newprio
    if attr.schedFlags.keepParams then .kept p
    else .changed (setschedulerPrio h (setschedulerParams h p attr) newprio)

/-! ## System calls -/

/-- `_sched_setscheduler`; `reset` is the bit `SCHED_RESET_ON_FORK` of the policy. -/
def setschedulerAttr (p : Task) (policy : PolicyArg) (reset : Bool) (priority : ℕ) : Attr where
  schedPolicy := policy
  schedFlags := ⟨policy != .setparam && reset, false, false, false, false, false⟩
  schedNice := h.prioToNice p.staticPrio
  schedPriority := priority

/-- `get_params`; for a deadline task `__getparam_dl` sets the priority and the flags. -/
def getParams (getparamDl : Task → Flags → ℕ × Flags) (p : Task) (attr : Attr) : Attr :=
  if h.dlPolicy p.policy then
    let (priority, flags) := getparamDl p attr.schedFlags
    { attr with schedPriority := priority, schedFlags := flags }
  else if h.rtPolicy p.policy then { attr with schedPriority := p.rtPriority }
  else { attr with schedNice := taskNice h p }

/-- The end of `sched_copy_attr`. -/
def copyAttr (attr : Attr) : Attr :=
  { attr with schedNice := max h.minNice (min attr.schedNice h.maxNice) }

/-- `sched_setattr`, from the attributes that the caller passes in to those that it
calls `__sched_setscheduler` with. -/
def setattrAttr (getparamDl : Task → Flags → ℕ × Flags) (p : Task) (attr : Attr) : Attr :=
  let attr := copyAttr h attr
  let policy := if attr.schedFlags.keepPolicy then .setparam else attr.schedPolicy
  let attr := { attr with schedPolicy := policy }
  if attr.schedFlags.keepParams then getParams h getparamDl p attr else attr

/-- The system call `nice`. -/
def sysNice (ctx : Context) (p : Task) (increment : ℤ) : Except Errno Task :=
  let increment := max (-h.niceWidth) (min increment h.niceWidth)
  let nice := max h.minNice (min (taskNice h p + increment) h.maxNice)
  if increment < 0 ∧ canNice h ctx nice = false then .error .eperm
  else
    match ctx.security with
    | some e => .error e
    | none => .ok (setUserNice h p nice)

def schedGetPriorityMax (policy : Policy) : ℤ :=
  match policy with
  | .fifo | .rr => h.maxRtPrio - 1
  | .deadline | .normal | .batch | .idle => 0

/-! ## Priorities and their classes -/

variable {h} {p p' : Task} {policy : Policy} {rtPriority : ℕ} {nice prio : ℤ}

/-- The nice value is in its range. -/
def NiceInRange (h : Header) (nice : ℤ) : Prop :=
  h.minNice ≤ nice ∧ nice ≤ h.maxNice

instance (h : Header) (nice : ℤ) : Decidable (NiceInRange h nice) :=
  inferInstanceAs (Decidable (_ ∧ _))

theorem taskNice_of_static {nice : ℤ} (hp : p.staticPrio = h.niceToPrio nice) :
    taskNice h p = nice := by
  rw [taskNice, hp, h.prioToNice_niceToPrio]

@[simp] theorem taskNice_copyProcess (p : Task) :
    taskNice h (h.copyProcess p) = taskNice h p := by
  rw [h.copyProcess_eq]
  rfl

theorem rtPrio_iff : h.rtPrio prio = true ↔ prio < 100 := by
  rw [h.rtPrio_iff, h.maxRtPrio_eq]

theorem dlPrio_iff : h.dlPrio prio = true ↔ prio < 0 := by
  rw [h.dlPrio_iff, h.maxDlPrio_eq]

theorem normalPrioOf_dl (hdl : h.dlPolicy policy = true) (rtPriority : ℕ) (nice : ℤ) :
    normalPrioOf h policy rtPriority nice = -1 := by
  rw [normalPrioOf, if_pos hdl, h.maxDlPrio_eq]
  rfl

theorem dl_of_rt (hrt : h.rtPolicy policy = true) : h.dlPolicy policy = false := by
  rcases (h.rtPolicy_iff policy).mp hrt with rfl | rfl
  · exact h.dlPolicy_fifo
  · exact h.dlPolicy_rr

theorem normalPrioOf_rt (hrt : h.rtPolicy policy = true) (rtPriority : ℕ) (nice : ℤ) :
    normalPrioOf h policy rtPriority nice = 99 - rtPriority := by
  rw [normalPrioOf, dl_of_rt hrt, if_neg (by simp), if_pos hrt, h.maxRtPrio_eq]
  rfl

theorem normalPrioOf_other (hdl : h.dlPolicy policy = false) (hrt : h.rtPolicy policy = false)
    (rtPriority : ℕ) (nice : ℤ) :
    normalPrioOf h policy rtPriority nice = nice + 120 := by
  rw [normalPrioOf, if_neg (by simp [hdl]), if_neg (by simp [hrt]), h.niceToPrio_eq]

theorem classOf_of_le (hle : 100 ≤ prio) : classOf h prio = .fair := by
  rw [classOf, if_neg, if_neg]
  · rw [rtPrio_iff]
    exact Int.not_lt.mpr hle
  · rw [dlPrio_iff]
    exact Int.not_lt.mpr (by omega)

theorem classOf_of_rt (hlo : 0 ≤ prio) (hhi : prio < 100) : classOf h prio = .rt := by
  rw [classOf, if_neg, if_pos]
  · exact rtPrio_iff.mpr hhi
  · rw [dlPrio_iff]
    exact Int.not_lt.mpr hlo

/-! ## What each change does -/

/-- **What a child starts with**, whatever its parent is, and whether or not the parent
asked for a reset: `-EAGAIN` cannot happen any more. -/
structure Forked (h : Header) (p p' : Task) : Prop where
  policy : p'.policy = .fifo
  rtPriority : p'.rtPriority = 99
  prio : p'.prio = 90
  schedClass : p'.schedClass = .rt
  schedResetOnFork : p'.schedResetOnFork = false
  piTopTask : p'.piTopTask = p.piTopTask
  nice : NiceInRange h (taskNice h p) → NiceInRange h (taskNice h p')

theorem schedFork_spec (current p : Task) :
    ∃ p', schedFork h current p = .ok p' ∧ Forked h p p' := by
  have hprio : h.niceToPrio (-30) = 90 := h.niceToPrio_eq (-30)
  have hdl : h.dlPrio 90 = false := by
    rw [← Bool.not_eq_true, dlPrio_iff]
    decide
  have hrt : h.rtPrio 90 = true := rtPrio_iff.mpr (by decide)
  have hzero : NiceInRange h 0 := by
    rw [NiceInRange, h.minNice_eq, h.maxNice_eq]
    decide
  have hstatic : h.prioToNice (h.niceToPrio 0) = 0 := h.prioToNice_niceToPrio 0
  simp only [schedFork, hprio, hdl, hrt, if_true, Bool.false_eq_true, if_false]
  refine ⟨_, rfl, rfl, rfl, rfl, rfl, ?_, ?_, ?_⟩
  · split
    · rfl
    · exact Bool.eq_false_iff.mpr ‹_›
  · split
    · dsimp only
      split
      · rfl
      · split
        · rfl
        · rfl
    · rfl
  · intro hnice
    split
    · show NiceInRange h (h.prioToNice _)
      dsimp only
      split
      · rw [hstatic]
        exact hzero
      · split
        · rw [hstatic]
          exact hzero
        · exact hnice
    · exact hnice

/-- What `set_user_nice` does. -/
inductive Niced (h : Header) (p : Task) (nice : ℤ) : Task → Prop where
  | same : Niced h p nice p
  /-- The value is kept for later. -/
  | stored (hnice : NiceInRange h nice)
      (hpolicy : h.dlPolicy p.policy = true ∨ h.rtPolicy p.policy = true) :
      Niced h p nice { p with staticPrio := h.niceToPrio nice }
  | used (hnice : NiceInRange h nice) (hdl : h.dlPolicy p.policy = false)
      (hrt : h.rtPolicy p.policy = false) :
      Niced h p nice { p with
        staticPrio := h.niceToPrio nice
        normalPrio := nice + 120
        prio := if p.prio < 100 then p.prio else nice + 120 }

theorem setUserNice_spec (h : Header) (p : Task) (nice : ℤ) :
    Niced h p nice (setUserNice h p nice) := by
  unfold setUserNice
  split
  · exact .same
  · rename_i hrange
    obtain ⟨-, hlo, hhi⟩ : ¬taskNice h p = nice ∧ h.minNice ≤ nice ∧ nice ≤ h.maxNice := by
      simpa only [not_or, not_lt, gt_iff_lt] using hrange
    split
    · rename_i hpolicy
      exact .stored ⟨hlo, hhi⟩ (Bool.or_eq_true_iff.mp hpolicy)
    · rename_i hpolicy
      obtain ⟨hdl, hrt⟩ : h.dlPolicy p.policy = false ∧ h.rtPolicy p.policy = false := by
        simpa using hpolicy
      have hnormal : normalPrio h { p with staticPrio := h.niceToPrio nice } = nice + 120 := by
        rw [normalPrio, normalPrioOf_other hdl hrt, taskNice_of_static rfl]
      have hused := Niced.used (h := h) ⟨hlo, hhi⟩ hdl hrt
      dsimp only
      rw [hnormal]
      split
      · rename_i hprio
        rw [if_pos (rtPrio_iff.mp hprio)] at hused
        exact hused
      · rename_i hprio
        rw [if_neg (fun hlt => hprio (rtPrio_iff.mpr hlt))] at hused
        exact hused

variable {ctx : Context} {lock : LockContext} {donor : Option ℤ} {attr : Attr} {user pi : Bool}
  {c : Checked}

/-- What a request has to be to pass the checks. -/
structure Passes (h : Header) (ctx : Context) (p : Task) (attr : Attr) (user : Bool)
    (c : Checked) : Prop where
  source : (attr.schedPolicy = .setparam ∧ c = ⟨p.policy, true, p.schedResetOnFork⟩) ∨
    ∃ policy, attr.schedPolicy = .policy policy ∧
      c = ⟨policy, false, attr.schedFlags.resetOnFork⟩
  priority_le : attr.schedPriority ≤ 99
  rt : h.rtPolicy c.policy = true ↔ attr.schedPriority ≠ 0
  allowed : user = true → ctx.capSysNice = false →
    deniesUnprivileged h ctx p attr c.policy c.resetOnFork = false

theorem ite_error_eq_ok {α : Type} {q : Prop} [Decidable q] {e : Errno} {x : Except Errno α}
    {a : α} : (if q then .error e else x) = .ok a ↔ ¬q ∧ x = .ok a := by
  by_cases hq : q
  · simp [hq]
  · simp [hq]

theorem raise_bind_eq_ok {α : Type} {e : Option Errno} {f : Unit → Except Errno α} {a : α} :
    (raise e >>= f) = .ok a ↔ e = none ∧ f () = .ok a := by
  cases e with
  | none => simp [raise, bind, Except.bind]
  | some e => simp [raise, bind, Except.bind]

theorem source_of_resolve (hresolve : resolve p attr = .ok c) :
    (attr.schedPolicy = .setparam ∧ c = ⟨p.policy, true, p.schedResetOnFork⟩) ∨
    ∃ policy, attr.schedPolicy = .policy policy ∧
      c = ⟨policy, false, attr.schedFlags.resetOnFork⟩ := by
  unfold resolve at hresolve
  cases hpolicy : attr.schedPolicy with
  | setparam =>
      rw [hpolicy] at hresolve
      exact .inl ⟨rfl, (Except.ok.inj hresolve).symm⟩
  | policy policy =>
      rw [hpolicy] at hresolve
      exact .inr ⟨policy, rfl, (Except.ok.inj hresolve).symm⟩
  | invalid =>
      rw [hpolicy] at hresolve
      cases hresolve

theorem passes_of_check (hcheck : check h ctx p attr user = .ok c) :
    Passes h ctx p attr user c := by
  cases hresolve : resolve p attr with
  | error e =>
      rw [check, hresolve] at hcheck
      cases hcheck
  | ok c' =>
      replace hcheck : verify h ctx p attr user c' = .ok c := by
        rw [check, hresolve] at hcheck
        exact hcheck
      simp only [verify, ite_error_eq_ok, raise_bind_eq_ok] at hcheck
      obtain ⟨-, hpriority, hvalid, hallowed, -, -, -, hlast⟩ := hcheck
      obtain rfl := Except.ok.inj hlast
      refine ⟨source_of_resolve hresolve, ?_, ?_, ?_⟩
      · rw [h.maxRtPrio_eq] at hpriority
        omega
      · have hrt : h.rtPolicy c'.policy = (attr.schedPriority != 0) := by
          simpa using (not_or.mp (fun hor => hvalid (Bool.or_eq_true_iff.mpr hor))).2
        rw [hrt, bne_iff_ne]
      · intro huser hcap
        simpa [huser, hcap] using hallowed

/-- What a request that has been checked remembers of its policy. -/
def Resolved (attr : Attr) (c : Checked) : Prop :=
  (attr.schedPolicy = .setparam ∧ c.keep = true) ∨
    (attr.schedPolicy = .policy c.policy ∧ c.keep = false)

theorem Passes.resolved (hpass : Passes h ctx p attr user c) : Resolved attr c := by
  rcases hpass.source with ⟨hpolicy, rfl⟩ | ⟨policy, hpolicy, rfl⟩
  · exact .inl ⟨hpolicy, rfl⟩
  · exact .inr ⟨hpolicy, rfl⟩

/-- **The task after a request that changes it.** -/
structure Changed (h : Header) (donor : Option ℤ) (p : Task) (attr : Attr) (pi : Bool)
    (c : Checked) (p' : Task) : Prop where
  policy : p'.policy = c.policy
  kept : c.keep = true → c.policy = p.policy
  rtPriority : p'.rtPriority = attr.schedPriority
  nice : taskNice h p' = if h.fairPolicy c.policy then attr.schedNice else taskNice h p
  normalPrio : p'.normalPrio = normalPrioOf h c.policy attr.schedPriority (taskNice h p')
  prio : p'.prio = rtEffectivePrio (if pi then donor else none)
    (normalPrioOf h c.policy attr.schedPriority attr.schedNice)
  schedClass : p'.schedClass = classOf h p'.prio
  schedResetOnFork : p'.schedResetOnFork = c.resetOnFork
  piTopTask : p'.piTopTask = p.piTopTask

theorem orElse_eq (hresolved : Resolved attr c) (hkeep : c.keep = true → c.policy = policy) :
    attr.schedPolicy.orElse policy = c.policy := by
  rcases hresolved with ⟨hpolicy, hc⟩ | ⟨hpolicy, -⟩
  · rw [hpolicy, hkeep hc]
    rfl
  · rw [hpolicy]
    rfl

theorem setschedulerParams_fields (p : Task) (attr : Attr) :
    (setschedulerParams h p attr).policy = attr.schedPolicy.orElse p.policy ∧
    (setschedulerParams h p attr).rtPriority = attr.schedPriority ∧
    (setschedulerParams h p attr).schedResetOnFork = p.schedResetOnFork ∧
    (setschedulerParams h p attr).piTopTask = p.piTopTask := by
  unfold setschedulerParams
  dsimp only
  split
  · exact ⟨rfl, rfl, rfl, rfl⟩
  · exact ⟨rfl, rfl, rfl, rfl⟩

theorem normalPrio_setschedulerParams (p : Task) (attr : Attr) :
    (setschedulerParams h p attr).normalPrio = normalPrio h (setschedulerParams h p attr) :=
  rfl

theorem taskNice_setschedulerParams (p : Task) (attr : Attr) :
    taskNice h (setschedulerParams h p attr) =
      if h.fairPolicy (attr.schedPolicy.orElse p.policy) then attr.schedNice
      else taskNice h p := by
  simp only [setschedulerParams]
  cases hfair : h.fairPolicy (attr.schedPolicy.orElse p.policy) with
  | true =>
      rw [h.not_dl_of_fair _ hfair]
      exact taskNice_of_static rfl
  | false =>
      rw [Bool.and_false]
      rfl

theorem changed_of_locked (hresolved : Resolved attr c)
    (hlocked : locked h lock donor p attr user pi c = .changed p') :
    Changed h donor p attr pi c p' := by
  unfold locked at hlocked
  split at hlocked
  · cases hlocked
  split at hlocked
  · cases hlocked
  split at hlocked
  · cases hlocked
  split at hlocked
  · cases hlocked
  split at hlocked
  · cases hlocked
  rename_i hrecheck
  split at hlocked
  · cases hlocked
  dsimp only at hlocked
  split at hlocked
  · cases hlocked
  have hkeep : c.keep = true → c.policy = p.policy := by
    intro hc
    simpa [hc] using hrecheck
  generalize hp₀ : { p with schedResetOnFork := c.resetOnFork } = p₀ at hlocked
  obtain ⟨hpolicy, hrtPriority, hreset, htop⟩ := setschedulerParams_fields (h := h) p₀ attr
  have horElse : attr.schedPolicy.orElse p₀.policy = c.policy :=
    orElse_eq hresolved (by rw [← hp₀]; exact hkeep)
  have hnice := taskNice_setschedulerParams (h := h) p₀ attr
  rw [horElse] at hpolicy hnice
  obtain rfl := Locked.changed.inj hlocked
  refine ⟨hpolicy, hkeep, hrtPriority, ?_, ?_, ?_, rfl, ?_, ?_⟩
  · show taskNice h (setschedulerParams h p₀ attr) = _
    rw [hnice, ← hp₀]
    rfl
  · show (setschedulerParams h p₀ attr).normalPrio = _
    rw [normalPrio_setschedulerParams, normalPrio, hpolicy, hrtPriority]
    rfl
  · cases pi with
    | true => rfl
    | false => rfl
  · show (setschedulerParams h p₀ attr).schedResetOnFork = _
    rw [hreset, ← hp₀]
  · show (setschedulerParams h p₀ attr).piTopTask = _
    rw [htop, ← hp₀]

theorem changes_of_locked (hlocked : locked h lock donor p attr user pi c = .changed p') :
    changes h lock p attr c.policy = true := by
  unfold locked at hlocked
  split at hlocked
  · cases hlocked
  split at hlocked
  · cases hlocked
  · simpa using ‹¬(!changes h lock p attr c.policy) = true›

theorem kept_of_locked (hlocked : locked h lock donor p attr user pi c = .kept p') :
    p' = { p with schedResetOnFork := c.resetOnFork } := by
  unfold locked at hlocked
  split at hlocked
  · cases hlocked
  split at hlocked
  · exact (Locked.kept.inj hlocked).symm
  split at hlocked
  · cases hlocked
  split at hlocked
  · cases hlocked
  split at hlocked
  · cases hlocked
  split at hlocked
  · cases hlocked
  dsimp only at hlocked
  split at hlocked
  · exact (Locked.kept.inj hlocked).symm
  · cases hlocked

end OS2023.Sched.Attributes
