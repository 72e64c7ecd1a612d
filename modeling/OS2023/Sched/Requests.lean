import Mathlib.Logic.Function.Basic
import OS2023.Lib.Machine
import OS2023.Sched.Attributes

/-!
# Requests under way

`__sched_setscheduler` checks a request without holding the lock, and carries it out
later, when the task may have changed. Of what was checked it looks again at the policy
only, and only if the request keeps it. So the system calls are taken apart into their
steps here, and a run is any interleaving of the steps of any number of calls with
forks, changes of nice values and priority inheritance.
-/

namespace OS2023.Sched.Attributes

open OS2023.Lib

/-! ## The machine -/

/-- A call of `__sched_setscheduler`; it has passed the checks if `checked` is there. -/
structure InFlight where
  pid : ℕ
  attr : Attr
  user : Bool
  checked : Option Checked
deriving DecidableEq

/-- The tasks and the calls. The kernel does not have `fresh`: the task was forked and no
request has changed it since. -/
structure World where
  task : ℕ → Task
  call : ℕ → Option InFlight
  fresh : ℕ → Bool

inductive Event where
  | fork (current child : ℕ)
  | setUserNice (p : ℕ) (nice : ℤ)
  /-- The system call `nice` of the task `p`. -/
  | nice (p : ℕ) (increment : ℤ) (ctx : Context)
  | rtMutexSetprio (p : ℕ) (donor : Option ℕ) (isIdle : Bool)
  | setscheduler (k p : ℕ) (policy : PolicyArg) (reset : Bool) (priority : ℕ) (user : Bool)
  | setattr (k p : ℕ) (attr : Attr)
  | check (k : ℕ) (ctx : Context)
  | lock (k : ℕ) (lock : LockContext)
deriving DecidableEq

def World.setTask (w : World) (p : ℕ) (t : Task) (fresh : Bool) : World :=
  { w with task := Function.update w.task p t, fresh := Function.update w.fresh p fresh }

def World.setCall (w : World) (k : ℕ) (call : Option InFlight) : World :=
  { w with call := Function.update w.call k call }

@[simp] theorem World.setTask_task (w : World) (p : ℕ) (t : Task) (fresh : Bool) :
    (w.setTask p t fresh).task = Function.update w.task p t :=
  rfl

@[simp] theorem World.setTask_fresh (w : World) (p : ℕ) (t : Task) (fresh : Bool) :
    (w.setTask p t fresh).fresh = Function.update w.fresh p fresh :=
  rfl

@[simp] theorem World.setTask_call (w : World) (p : ℕ) (t : Task) (fresh : Bool) :
    (w.setTask p t fresh).call = w.call :=
  rfl

@[simp] theorem World.setCall_task (w : World) (k : ℕ) (call : Option InFlight) :
    (w.setCall k call).task = w.task :=
  rfl

@[simp] theorem World.setCall_fresh (w : World) (k : ℕ) (call : Option InFlight) :
    (w.setCall k call).fresh = w.fresh :=
  rfl

@[simp] theorem World.setCall_call (w : World) (k : ℕ) (call : Option InFlight) :
    (w.setCall k call).call = Function.update w.call k call :=
  rfl

/-- The priority of the task for which `p` is boosted. -/
def World.topPrio (w : World) (p : ℕ) : Option ℤ :=
  (w.task p).piTopTask.map fun d => (w.task d).prio

variable (h : Header) (getparamDl : Task → Flags → ℕ × Flags)

/-- One step. A child is a copy of the running task, without its waiters. -/
def step (w : World) : Event → Option World
  | .fork current child =>
      if child = current then none
      else
        match schedFork h (w.task current) (h.copyProcess (w.task current)) with
        | .ok p => some (w.setTask child p true)
        | .error _ => some w
  | .setUserNice p nice => some (w.setTask p (setUserNice h (w.task p) nice) (w.fresh p))
  | .nice p increment ctx =>
      match sysNice h ctx (w.task p) increment with
      | .ok t => some (w.setTask p t (w.fresh p))
      | .error _ => some w
  | .rtMutexSetprio p donor isIdle =>
      some (w.setTask p (rtMutexSetprio h (w.task p)
        (donor.map fun d => (d, (w.task d).prio)) isIdle) (w.fresh p))
  | .setscheduler k p policy reset priority user =>
      if w.call k = none then
        some (w.setCall k
          (some ⟨p, setschedulerAttr h (w.task p) policy reset priority, user, none⟩))
      else none
  | .setattr k p attr =>
      if w.call k = none then
        some (w.setCall k (some ⟨p, setattrAttr h getparamDl (w.task p) attr, true, none⟩))
      else none
  | .check k ctx =>
      match w.call k with
      | some ⟨p, attr, user, none⟩ =>
          match check h ctx (w.task p) attr user with
          | .ok c => some (w.setCall k (some ⟨p, attr, user, some c⟩))
          | .error _ => some (w.setCall k none)
      | _ => none
  | .lock k lock =>
      match w.call k with
      | some ⟨p, attr, user, some c⟩ =>
          match locked h lock (w.topPrio p) (w.task p) attr user true c with
          | .error _ => some (w.setCall k none)
          | .recheck => some (w.setCall k (some ⟨p, attr, user, none⟩))
          | .kept t => some ((w.setTask p t (w.fresh p)).setCall k none)
          | .changed t => some ((w.setTask p t false).setCall k none)
      | _ => none

/-! ## Steps -/

/-- Everything a step can do, with its guard. -/
inductive Step (w : World) : Event → World → Prop where
  | fork {current child : ℕ} {t : Task} (hne : child ≠ current)
      (ht : Forked h (h.copyProcess (w.task current)) t) :
      Step w (.fork current child) (w.setTask child t true)
  | setUserNice {p : ℕ} {nice : ℤ} {t : Task} (ht : Niced h (w.task p) nice t) :
      Step w (.setUserNice p nice) (w.setTask p t (w.fresh p))
  | nice {p : ℕ} {increment : ℤ} {ctx : Context} {t : Task}
      (ht : sysNice h ctx (w.task p) increment = .ok t) :
      Step w (.nice p increment ctx) (w.setTask p t (w.fresh p))
  | niceFails {p : ℕ} {increment : ℤ} {ctx : Context} : Step w (.nice p increment ctx) w
  | rtMutexSetprio {p : ℕ} {donor : Option ℕ} {isIdle : Bool} :
      Step w (.rtMutexSetprio p donor isIdle) (w.setTask p (rtMutexSetprio h (w.task p)
        (donor.map fun d => (d, (w.task d).prio)) isIdle) (w.fresh p))
  | setscheduler {k p : ℕ} {policy : PolicyArg} {reset : Bool} {priority : ℕ} {user : Bool} :
      Step w (.setscheduler k p policy reset priority user) (w.setCall k
        (some ⟨p, setschedulerAttr h (w.task p) policy reset priority, user, none⟩))
  | setattr {k p : ℕ} {attr : Attr} : Step w (.setattr k p attr) (w.setCall k
        (some ⟨p, setattrAttr h getparamDl (w.task p) attr, true, none⟩))
  | check {k p : ℕ} {attr : Attr} {user : Bool} {ctx : Context} {c : Checked}
      (hcall : w.call k = some ⟨p, attr, user, none⟩)
      (hpass : Passes h ctx (w.task p) attr user c) :
      Step w (.check k ctx) (w.setCall k (some ⟨p, attr, user, some c⟩))
  | checkFails {k : ℕ} {ctx : Context} : Step w (.check k ctx) (w.setCall k none)
  | recheck {k p : ℕ} {attr : Attr} {user : Bool} {lock : LockContext} {c : Checked}
      (hcall : w.call k = some ⟨p, attr, user, some c⟩) :
      Step w (.lock k lock) (w.setCall k (some ⟨p, attr, user, none⟩))
  | kept {k p : ℕ} {attr : Attr} {user : Bool} {lock : LockContext} {c : Checked}
      (hcall : w.call k = some ⟨p, attr, user, some c⟩) :
      Step w (.lock k lock) ((w.setTask p { w.task p with schedResetOnFork := c.resetOnFork }
        (w.fresh p)).setCall k none)
  | changed {k p : ℕ} {attr : Attr} {user : Bool} {lock : LockContext} {c : Checked}
      {t : Task} (hcall : w.call k = some ⟨p, attr, user, some c⟩)
      (hchanges : changes h lock (w.task p) attr c.policy = true)
      (ht : Resolved attr c → Changed h (w.topPrio p) (w.task p) attr true c t) :
      Step w (.lock k lock) ((w.setTask p t false).setCall k none)
  | lockFails {k : ℕ} {lock : LockContext} : Step w (.lock k lock) (w.setCall k none)

variable {h getparamDl} {w w' : World} {e : Event}

theorem step_cases (hstep : step h getparamDl w e = some w') : Step h getparamDl w e w' := by
  cases e with
  | fork current child =>
      obtain ⟨hne, heq⟩ := Option.ite_none_left_eq_some.mp hstep
      obtain ⟨t, hfork, ht⟩ :=
        schedFork_spec (h := h) (w.task current) (h.copyProcess (w.task current))
      rw [hfork] at heq
      obtain rfl := Option.some.inj heq
      exact .fork hne ht
  | setUserNice p nice =>
      obtain rfl := Option.some.inj hstep
      exact .setUserNice (setUserNice_spec h (w.task p) nice)
  | nice p increment ctx =>
      simp only [step] at hstep
      split at hstep
      · obtain rfl := Option.some.inj hstep
        exact .nice ‹_›
      · obtain rfl := Option.some.inj hstep
        exact .niceFails
  | rtMutexSetprio p donor isIdle =>
      obtain rfl := Option.some.inj hstep
      exact .rtMutexSetprio
  | setscheduler k p policy reset priority user =>
      obtain ⟨-, heq⟩ := Option.ite_none_right_eq_some.mp hstep
      obtain rfl := Option.some.inj heq
      exact .setscheduler
  | setattr k p attr =>
      obtain ⟨-, heq⟩ := Option.ite_none_right_eq_some.mp hstep
      obtain rfl := Option.some.inj heq
      exact .setattr
  | check k ctx =>
      simp only [step] at hstep
      split at hstep
      · rename_i hcall
        split at hstep
        · rename_i hcheck
          obtain rfl := Option.some.inj hstep
          exact .check hcall (passes_of_check hcheck)
        · obtain rfl := Option.some.inj hstep
          exact .checkFails
      · cases hstep
  | lock k lock =>
      simp only [step] at hstep
      split at hstep
      · rename_i hcall
        split at hstep
        · obtain rfl := Option.some.inj hstep
          exact .lockFails
        · obtain rfl := Option.some.inj hstep
          exact .recheck hcall
        · rename_i hlocked
          obtain rfl := Option.some.inj hstep
          rw [kept_of_locked hlocked]
          exact .kept hcall
        · rename_i hlocked
          obtain rfl := Option.some.inj hstep
          exact .changed hcall (changes_of_locked hlocked) fun hresolved =>
            changed_of_locked hresolved hlocked
      · cases hstep

/-! ## Undisturbed calls -/

section Undisturbed

variable {k p : ℕ} {policy : PolicyArg} {reset user : Bool} {priority : ℕ} {attr : Attr}
  {ctx : Context} {lock : LockContext} {c : Checked} {t : Task}

theorem step_setscheduler (hcall : w.call k = none) :
    step h getparamDl w (.setscheduler k p policy reset priority user) = some (w.setCall k
      (some ⟨p, setschedulerAttr h (w.task p) policy reset priority, user, none⟩)) :=
  if_pos hcall

theorem step_check (hcall : w.call k = some ⟨p, attr, user, none⟩)
    (hcheck : check h ctx (w.task p) attr user = .ok c) :
    step h getparamDl w (.check k ctx) =
      some (w.setCall k (some ⟨p, attr, user, some c⟩)) := by
  simp only [step, hcall, hcheck]

theorem exists_step_lock (hcall : w.call k = some ⟨p, attr, user, some c⟩)
    (hlocked : locked h lock (w.topPrio p) (w.task p) attr user true c = .kept t ∨
      locked h lock (w.topPrio p) (w.task p) attr user true c = .changed t) :
    ∃ w', step h getparamDl w (.lock k lock) = some w' ∧
      w'.task = Function.update w.task p t := by
  rcases hlocked with hlocked | hlocked
  · simp only [step, hcall, hlocked]
    exact ⟨_, rfl, rfl⟩
  · simp only [step, hcall, hlocked]
    exact ⟨_, rfl, rfl⟩

/-- A call that passes the checks and is carried out at once. -/
theorem run_setscheduler (hcall : w.call k = none)
    (hattr : setschedulerAttr h (w.task p) policy reset priority = attr)
    (hcheck : check h ctx (w.task p) attr user = .ok c)
    (hlocked : locked h lock (w.topPrio p) (w.task p) attr user true c = .kept t ∨
      locked h lock (w.topPrio p) (w.task p) attr user true c = .changed t) :
    ∃ w', runFrom (step h getparamDl) w [.setscheduler k p policy reset priority user,
      .check k ctx, .lock k lock] = some w' ∧ w'.task = Function.update w.task p t := by
  subst hattr
  have hself : ∀ (w : World) (f : InFlight), (w.setCall k (some f)).call k = some f :=
    fun w f => Function.update_self _ _ _
  obtain ⟨w', hlock, htask⟩ := exists_step_lock 
    (hself (w.setCall k (some ⟨p, setschedulerAttr h (w.task p) policy reset priority, user,
      none⟩)) _) hlocked
  exact ⟨w', runFrom_cons (step_setscheduler hcall)
    (runFrom_cons (step_check (hself w _) hcheck) (runFrom_cons hlock rfl)), htask⟩

end Undisturbed

/-! ## What holds of every task -/

/-- The class belongs to the priority, and the other attributes belong together; except
that a fresh task has the normal priority of an ancestor. -/
structure SoundTask (h : Header) (p : Task) (fresh : Bool) : Prop where
  schedClass : p.schedClass = classOf h p.prio
  nice : NiceInRange h (taskNice h p)
  rt : h.rtPolicy p.policy = true ↔ p.rtPriority ≠ 0
  rtPriority_le : p.rtPriority ≤ 99
  of_fresh : fresh = true → p.policy = .fifo ∧ p.rtPriority = 99
  normalPrio : fresh = false → p.normalPrio = normalPrio h p

structure SoundCall (h : Header) (f : InFlight) : Prop where
  nice : NiceInRange h f.attr.schedNice
  priority_le : ∀ c, f.checked = some c → f.attr.schedPriority ≤ 99
  rt : ∀ c, f.checked = some c → (h.rtPolicy c.policy = true ↔ f.attr.schedPriority ≠ 0)
  resolved : ∀ c, f.checked = some c → Resolved f.attr c

structure Sound (h : Header) (w : World) : Prop where
  task : ∀ p, SoundTask h (w.task p) (w.fresh p)
  call : ∀ k f, w.call k = some f → SoundCall h f

theorem Sound.setTask (hsound : Sound h w) {p : ℕ} {t : Task} {fresh : Bool}
    (ht : SoundTask h t fresh) : Sound h (w.setTask p t fresh) := by
  refine ⟨fun q => ?_, hsound.call⟩
  by_cases hq : q = p
  · subst hq
    simpa only [World.setTask_task, World.setTask_fresh, Function.update_self] using ht
  · simpa only [World.setTask_task, World.setTask_fresh, Function.update_of_ne hq] using
      hsound.task q

theorem Sound.setCall (hsound : Sound h w) {k : ℕ} {call : Option InFlight}
    (hcall : ∀ f, call = some f → SoundCall h f) : Sound h (w.setCall k call) := by
  refine ⟨hsound.task, fun j f hf => ?_⟩
  by_cases hj : j = k
  · subst hj
    rw [World.setCall_call, Function.update_self] at hf
    exact hcall f hf
  · rw [World.setCall_call, Function.update_of_ne hj] at hf
    exact hsound.call j f hf

theorem Sound.endCall (hsound : Sound h w) (k : ℕ) : Sound h (w.setCall k none) :=
  hsound.setCall fun f hf => absurd hf (by simp)

variable {p t : Task} {fresh : Bool} {nice : ℤ} {attr : Attr} {c : Checked} {donor : Option ℤ}

theorem SoundTask.forked (hp : SoundTask h p fresh)
    (ht : Forked h (h.copyProcess p) t) : SoundTask h t true where
  schedClass := by
    rw [ht.schedClass, ht.prio, classOf_of_rt (by decide) (by decide)]
  nice := ht.nice (by rw [taskNice_copyProcess]; exact hp.nice)
  rt := by
    rw [ht.policy, ht.rtPriority]
    exact iff_of_true h.rtPolicy_fifo (by decide)
  rtPriority_le := ht.rtPriority.le
  of_fresh := fun _ => ⟨ht.policy, ht.rtPriority⟩
  normalPrio := fun hfresh => absurd hfresh (by simp)

/-- A task that is neither real-time nor deadline is not fresh. -/
theorem SoundTask.fresh_eq_false (hp : SoundTask h p fresh) (hrt : h.rtPolicy p.policy = false) :
    fresh = false := by
  by_contra hne
  rw [(hp.of_fresh (Bool.eq_true_of_not_eq_false hne)).1, h.rtPolicy_fifo] at hrt
  cases hrt

theorem SoundTask.niced (hp : SoundTask h p fresh) (ht : Niced h p nice t) :
    SoundTask h t fresh := by
  cases ht with
  | same => exact hp
  | stored hnice hpolicy =>
      refine ⟨hp.schedClass, ?_, hp.rt, hp.rtPriority_le, hp.of_fresh, fun hfresh => ?_⟩
      · rw [taskNice_of_static rfl]
        exact hnice
      · show p.normalPrio = _
        rw [hp.normalPrio hfresh]
        rcases hpolicy with hdl | hrt
        · rw [Attributes.normalPrio, Attributes.normalPrio, normalPrioOf_dl hdl,
            normalPrioOf_dl hdl]
        · rw [Attributes.normalPrio, Attributes.normalPrio, normalPrioOf_rt hrt,
            normalPrioOf_rt hrt]
  | used hnice hdl hrt =>
      refine ⟨?_, ?_, hp.rt, hp.rtPriority_le, hp.of_fresh, fun _ => ?_⟩
      · show p.schedClass = classOf h (if p.prio < 100 then p.prio else nice + 120)
        rw [hp.schedClass]
        by_cases hprio : p.prio < 100
        · rw [if_pos hprio]
        · have hlo := hnice.1
          rw [h.minNice_eq] at hlo
          rw [if_neg hprio, classOf_of_le (Int.not_lt.mp hprio), classOf_of_le (by omega)]
      · rw [taskNice_of_static rfl]
        exact hnice
      · show nice + 120 = _
        rw [Attributes.normalPrio, normalPrioOf_other hdl hrt, taskNice_of_static rfl]

theorem SoundTask.boosted (hp : SoundTask h p fresh) (donor : Option (ℕ × ℤ))
    (isIdle : Bool) : SoundTask h (rtMutexSetprio h p donor isIdle) fresh := by
  have hsame : SoundTask h { p with piTopTask := donor.map Prod.fst } fresh :=
    ⟨hp.schedClass, hp.nice, hp.rt, hp.rtPriority_le, hp.of_fresh, hp.normalPrio⟩
  unfold rtMutexSetprio
  dsimp only
  split
  · exact hsame
  · split
    · exact hsame
    · exact ⟨rfl, hp.nice, hp.rt, hp.rtPriority_le, hp.of_fresh, hp.normalPrio⟩

theorem SoundTask.changed (hp : SoundTask h p fresh) (hnice : NiceInRange h attr.schedNice)
    (hle : attr.schedPriority ≤ 99) (hrt : h.rtPolicy c.policy = true ↔ attr.schedPriority ≠ 0)
    (ht : Changed h donor p attr true c t) : SoundTask h t false where
  schedClass := ht.schedClass
  nice := by
    rw [ht.nice]
    split
    · exact hnice
    · exact hp.nice
  rt := by rw [ht.policy, ht.rtPriority, hrt]
  rtPriority_le := by rw [ht.rtPriority]; exact hle
  of_fresh := fun hfresh => absurd hfresh (by simp)
  normalPrio := fun _ => by
    rw [ht.normalPrio, Attributes.normalPrio, ht.policy, ht.rtPriority]

theorem schedNice_getParams (p : Task) (attr : Attr) :
    (getParams h getparamDl p attr).schedNice = attr.schedNice ∨
    (getParams h getparamDl p attr).schedNice = taskNice h p := by
  unfold getParams
  split
  · exact .inl rfl
  · split
    · exact .inl rfl
    · exact .inr rfl

/-- The nice value of a request is in its range. -/
theorem niceInRange_setattrAttr (hp : NiceInRange h (taskNice h p)) (attr : Attr) :
    NiceInRange h (setattrAttr h getparamDl p attr).schedNice := by
  have hclamp : NiceInRange h (max h.minNice (min attr.schedNice h.maxNice)) := by
    have hlo := h.minNice_eq
    have hhi := h.maxNice_eq
    constructor
    · exact le_max_left _ _
    · exact max_le (by omega) (min_le_right _ _)
  unfold setattrAttr
  dsimp only
  split
  · rcases schedNice_getParams (h := h)  p _ with heq | heq
    · rw [heq]
      exact hclamp
    · rw [heq]
      exact hp
  · exact hclamp

theorem niced_of_sysNice {ctx : Context} {increment : ℤ}
    (ht : sysNice h ctx p increment = .ok t) : ∃ nice, Niced h p nice t := by
  unfold sysNice at ht
  dsimp only at ht
  split at ht
  · cases ht
  · split at ht
    · cases ht
    · obtain rfl := Except.ok.inj ht
      exact ⟨_, setUserNice_spec h p _⟩

theorem Step.sound (hstep : Step h getparamDl w e w') (hsound : Sound h w) : Sound h w' := by
  cases hstep with
  | fork hne ht => exact hsound.setTask ((hsound.task _).forked ht)
  | setUserNice ht => exact hsound.setTask ((hsound.task _).niced ht)
  | nice ht =>
      obtain ⟨nice, ht⟩ := niced_of_sysNice ht
      exact hsound.setTask ((hsound.task _).niced ht)
  | niceFails => exact hsound
  | rtMutexSetprio => exact hsound.setTask ((hsound.task _).boosted _ _)
  | setscheduler =>
      refine hsound.setCall fun f hf => ?_
      obtain rfl := Option.some.inj hf
      exact ⟨(hsound.task _).nice, by simp, by simp, by simp⟩
  | setattr =>
      refine hsound.setCall fun f hf => ?_
      obtain rfl := Option.some.inj hf
      exact ⟨niceInRange_setattrAttr (hsound.task _).nice _, by simp, by simp, by simp⟩
  | check hcall hpass =>
      refine hsound.setCall fun f hf => ?_
      obtain rfl := Option.some.inj hf
      refine ⟨(hsound.call _ _ hcall).nice, ?_, ?_, ?_⟩
      · rintro c' ⟨⟩
        exact hpass.priority_le
      · rintro c' ⟨⟩
        exact hpass.rt
      · rintro c' ⟨⟩
        exact hpass.resolved
  | checkFails => exact hsound.endCall _
  | recheck hcall =>
      refine hsound.setCall fun f hf => ?_
      obtain rfl := Option.some.inj hf
      exact ⟨(hsound.call _ _ hcall).nice, by simp, by simp, by simp⟩
  | kept hcall =>
      have htask := hsound.task
      refine Sound.endCall (hsound.setTask ?_) _
      exact ⟨(htask _).schedClass, (htask _).nice, (htask _).rt, (htask _).rtPriority_le,
        (htask _).of_fresh, (htask _).normalPrio⟩
  | changed hcall _ ht =>
      have hf := hsound.call _ _ hcall
      refine Sound.endCall (hsound.setTask ?_) _
      exact (hsound.task _).changed hf.nice (hf.priority_le _ rfl) (hf.rt _ rfl)
        (ht (hf.resolved _ rfl))
  | lockFails => exact hsound.endCall _

/-- **Every interleaving keeps the attributes of every task in order**: whatever is
forked, requested or boosted, the class is that of the priority, a priority in 1..99 goes
with a real-time policy and no other, and only a task that nobody has changed since its
fork may have a wrong normal priority. -/
theorem attributes_sound {w₀ : World} {es : List Event} (hsound : Sound h w₀)
    (hrun : runFrom (step h getparamDl) w₀ es = some w) : Sound h w :=
  run_invariant (I := Sound h) hsound (fun _ _ _ hstep => (step_cases hstep).sound) hrun

/-- A kernel with the numbers of the table above `task_prio`. -/
def header : Header where
  maxRtPrio := 100
  maxDlPrio := 0
  minNice := -20
  maxNice := 19
  niceWidth := 40
  fairPolicy := fun policy => policy == .normal || policy == .batch
  rtPolicy := fun policy => policy == .fifo || policy == .rr
  dlPolicy := fun policy => policy == .deadline
  idlePolicy := fun policy => policy == .idle
  rtPrio := fun prio => prio < 100
  dlPrio := fun prio => prio < 0
  niceToPrio := fun nice => nice + 120
  prioToNice := fun prio => prio - 120
  niceToRlimit := fun nice => 19 - nice + 1
  copyProcess := fun p => { p with piTopTask := none }
  maxRtPrio_eq := rfl
  maxDlPrio_eq := rfl
  minNice_eq := rfl
  maxNice_eq := rfl
  fair_normal := rfl
  not_rt_of_fair := by
    rintro (_ | _ | _ | _ | _ | _) hfair
    all_goals first | rfl | cases hfair
  not_dl_of_fair := by
    rintro (_ | _ | _ | _ | _ | _) hfair
    all_goals first | rfl | cases hfair
  rtPolicy_iff := fun policy => by simp
  dlPolicy_iff := fun policy => beq_iff_eq
  idlePolicy_iff := fun policy => beq_iff_eq
  rtPrio_iff := fun prio => decide_eq_true_iff
  dlPrio_iff := fun prio => decide_eq_true_iff
  niceToPrio_eq := fun nice => rfl
  prioToNice_niceToPrio := fun nice => Int.add_sub_cancel nice 120
  niceToRlimit_eq := fun nice => rfl
  copyProcess_eq := fun p => rfl

/-- The task that the kernel starts with. -/
def initTask : Task :=
  ⟨.normal, 120, 0, 120, 120, .fair, false, none⟩

def initial : World :=
  ⟨fun _ => initTask, fun _ => none, fun _ => false⟩

theorem sound_initTask : SoundTask header initTask false :=
  ⟨rfl, by decide, by decide, by decide, by simp, fun _ => rfl⟩

theorem sound_initial : Sound header initial :=
  ⟨fun _ => sound_initTask, fun k f hf => absurd hf (by simp [initial])⟩

/-- No deadline parameters are read. -/
def noDl (_ : Task) (flags : Flags) : ℕ × Flags :=
  (0, flags)

/-- A caller without privileges who owns the task. -/
def owner : Context :=
  ⟨false, 0, 0, true, none, none, true⟩

def unlocked : LockContext :=
  ⟨false, false, false, false, false⟩

/-- Task 1 forks task 2, which becomes an ordinary task, and is boosted for task 1. -/
def demotion : List Event :=
  [.fork 1 2, .setscheduler 0 2 (.policy .normal) false 0 true, .check 0 owner,
    .rtMutexSetprio 2 (some 1) false, .lock 0 unlocked, .nice 2 5 owner]

theorem attributes_sound_demotion : ∃ w, runFrom (step header noDl) initial demotion = some w ∧
    w.task 2 = ⟨.normal, 125, 0, 125, 125, .fair, false, some 1⟩ ∧ Sound header w := by
  obtain ⟨w, hrun, htask⟩ : ∃ w, runFrom (step header noDl) initial demotion = some w ∧
      w.task 2 = ⟨.normal, 125, 0, 125, 125, .fair, false, some 1⟩ := ⟨_, rfl, rfl⟩
  exact ⟨w, hrun, htask, attributes_sound sound_initial hrun⟩

end OS2023.Sched.Attributes
