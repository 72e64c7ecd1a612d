import OS2023.Sched.Entitlement

/-!
# What a task reports and what it gets

`sched_getscheduler`, `sched_getparam` and `getpriority` report the policy, the priority
in 1..99 and the nice value; the scheduler goes by `prio`. Without priority inheritance
one determines the other, for every task but the fresh ones: these report `SCHED_FIFO`
with 99 and run at `prio` 90, and a request for just that changes nothing. The children
of `3/assignment3.c` that ask for `SCHED_FIFO` make this request.
-/

namespace OS2023.Sched.Attributes

open OS2023.Lib

variable {h : Header} {getparamDl : Task → Flags → ℕ × Flags} {w₀ w w' : World} {e : Event}
  {es : List Event} {p t : Task} {fresh : Bool} {attr : Attr} {c : Checked}

/-! ## Every task -/

/-- The policies for which a request stores all that the priority depends on. -/
def Tracked (h : Header) (policy : Policy) : Prop :=
  h.fairPolicy policy = true ∨ h.rtPolicy policy = true ∨ h.dlPolicy policy = true

def Event.boosts : Event → Bool
  | .rtMutexSetprio _ _ _ => true
  | _ => false

/-- The priority of a task that was never boosted. -/
structure Unboosted (h : Header) (p : Task) (fresh : Bool) : Prop where
  piTopTask : p.piTopTask = none
  of_fresh : fresh = true → p.prio = 90
  tracked : fresh = false → Tracked h p.policy → p.prio = p.normalPrio

theorem Unboosted.niced {nice : ℤ} (hp : Unboosted h p fresh) (hsound : SoundTask h p fresh)
    (ht : Niced h p nice t) : Unboosted h t fresh := by
  cases ht with
  | same => exact hp
  | stored _ _ => exact ⟨hp.piTopTask, hp.of_fresh, hp.tracked⟩
  | used hnice hdl hrt =>
      have hfresh := hsound.fresh_eq_false hrt
      refine ⟨hp.piTopTask, fun htrue => ?_, fun _ htracked => ?_⟩
      · rw [hfresh] at htrue
        cases htrue
      · show (if p.prio < 100 then p.prio else nice + 120) = nice + 120
        rw [if_neg]
        -- the old priority is that of the old nice value
        have hlo := hsound.nice.1
        rw [h.minNice_eq] at hlo
        rw [hp.tracked hfresh htracked, hsound.normalPrio hfresh, Attributes.normalPrio,
          normalPrioOf_other hdl hrt]
        omega

theorem Unboosted.changed (hp : Unboosted h p fresh)
    (ht : Changed h none p attr true c t) : Unboosted h t false where
  piTopTask := ht.piTopTask.trans hp.piTopTask
  of_fresh := fun hfalse => absurd hfalse (by simp)
  tracked := fun _ htracked => by
    rw [ht.policy] at htracked
    rw [ht.prio, ht.normalPrio, ht.nice]
    show normalPrioOf h c.policy attr.schedPriority attr.schedNice = _
    rcases htracked with hfair | hrt | hdl
    · rw [hfair, if_pos rfl]
    · rw [normalPrioOf_rt hrt, normalPrioOf_rt hrt]
    · rw [normalPrioOf_dl hdl, normalPrioOf_dl hdl]

/-- All tasks are unboosted. -/
structure Calm (h : Header) (w : World) : Prop where
  sound : Sound h w
  unboosted : ∀ p, Unboosted h (w.task p) (w.fresh p)

theorem Calm.topPrio (hw : Calm h w) (p : ℕ) : w.topPrio p = none := by
  rw [World.topPrio, (hw.unboosted p).piTopTask]
  rfl

theorem unboosted_setTask (hw : Calm h w) {q : ℕ} (ht : Unboosted h t fresh) (i : ℕ) :
    Unboosted h ((w.setTask q t fresh).task i) ((w.setTask q t fresh).fresh i) := by
  by_cases hi : i = q
  · subst hi
    rw [World.setTask_task, World.setTask_fresh, Function.update_self, Function.update_self]
    exact ht
  · rw [World.setTask_task, World.setTask_fresh, Function.update_of_ne hi,
      Function.update_of_ne hi]
    exact hw.unboosted i

theorem Step.calm (hstep : Step h getparamDl w e w') (hw : Calm h w)
    (hevent : e.boosts = false) : Calm h w' := by
  refine ⟨hstep.sound hw.sound, ?_⟩
  cases hstep with
  | fork hne ht =>
      have htop := ht.piTopTask.trans (h.copyProcess_piTopTask _)
      refine unboosted_setTask hw ⟨htop, fun _ => ht.prio, fun hfalse => ?_⟩
      cases hfalse
  | setUserNice ht =>
      exact unboosted_setTask hw ((hw.unboosted _).niced (hw.sound.task _) ht)
  | nice ht =>
      obtain ⟨nice, hniced⟩ := niced_of_sysNice ht
      exact unboosted_setTask hw ((hw.unboosted _).niced (hw.sound.task _) hniced)
  | niceFails => exact hw.unboosted
  | rtMutexSetprio => cases hevent
  | setscheduler => exact hw.unboosted
  | setattr => exact hw.unboosted
  | check _ _ => exact hw.unboosted
  | checkFails => exact hw.unboosted
  | recheck _ => exact hw.unboosted
  | kept _ =>
      have hp := hw.unboosted
      exact unboosted_setTask hw ⟨(hp _).piTopTask, (hp _).of_fresh, (hp _).tracked⟩
  | changed hcall _ ht =>
      have hchanged := ht ((hw.sound.call _ _ hcall).resolved _ rfl)
      rw [hw.topPrio] at hchanged
      exact unboosted_setTask hw ((hw.unboosted _).changed hchanged)
  | lockFails => exact hw.unboosted

/-- **A task runs at the priority that it reports if and only if it has been changed since
its fork.** -/
theorem prio_reported_iff (hw : Calm h w₀) (hrun : runFrom (step h getparamDl) w₀ es = some w)
    (hevents : ∀ e ∈ es, e.boosts = false) (p : ℕ) (htracked : Tracked h (w.task p).policy) :
    (w.task p).prio = normalPrio h (w.task p) ↔ w.fresh p = false := by
  have hcalm : Calm h w := by
    refine history_invariant_of (I := fun _ w => Calm h w) hw ?_
      (throughout_of_forall hevents) hrun
    exact fun _ w e w' hevent hstep hw => (step_cases hstep).calm hw hevent
  constructor
  · intro hprio
    by_contra hfresh
    have htrue := Bool.eq_true_of_not_eq_false hfresh
    obtain ⟨hpolicy, hpriority⟩ := (hcalm.sound.task p).of_fresh htrue
    rw [(hcalm.unboosted p).of_fresh htrue, normalPrio, hpolicy, normalPrioOf_rt h.rtPolicy_fifo,
      hpriority] at hprio
    exact absurd hprio (by decide)
  · intro hfresh
    rw [(hcalm.unboosted p).tracked hfresh htracked, (hcalm.sound.task p).normalPrio hfresh]

theorem calm_initial : Calm header initial :=
  ⟨sound_initial, fun _ => ⟨rfl, fun htrue => absurd htrue (by simp [initial]), fun _ _ => rfl⟩⟩

/-- A fork, and a request for what the child reports already. -/
theorem prio_reported_iff_fork : ∃ w, runFrom (step header noDl) initial [.fork 1 2,
      .setscheduler 0 2 (.policy .fifo) false 99 true, .check 0 owner, .lock 0 unlocked] =
        some w ∧ ((w.task 2).prio = normalPrio header (w.task 2) ↔ w.fresh 2 = false) := by
  obtain ⟨w, hrun, htracked⟩ : ∃ w, runFrom (step header noDl) initial [.fork 1 2,
      .setscheduler 0 2 (.policy .fifo) false 99 true, .check 0 owner, .lock 0 unlocked] =
        some w ∧ Tracked header (w.task 2).policy := ⟨_, rfl, .inr (.inl rfl)⟩
  exact ⟨w, hrun, prio_reported_iff calm_initial hrun (by decide) 2 htracked⟩

/-! ## A fresh task -/

/-- The attributes ask for `SCHED_FIFO`, or for the policy that the task has, with the
priority 99. -/
def AsksFifo (attr : Attr) : Prop :=
  (attr.schedPolicy = .setparam ∨ attr.schedPolicy = .policy .fifo) ∧
    attr.schedPriority = 99 ∧ attr.schedFlags.utilClamp = false

/-- Nothing but `SCHED_FIFO` with 99 is asked of the task `q`, and nobody boosts it or takes
its number for another task. -/
def LeavesFifo (q : ℕ) : Event → Prop
  | .fork _ child => child ≠ q
  | .rtMutexSetprio p _ _ => p ≠ q
  | .setscheduler _ p policy _ priority _ =>
      p = q → (policy = .setparam ∨ policy = .policy .fifo) ∧ priority = 99
  | .setattr _ p attr => p = q → AsksFifo attr ∧ attr.schedFlags.keepParams = false
  | _ => True

/-- A task as its fork left it. -/
structure AsForked (p : Task) : Prop where
  policy : p.policy = .fifo
  rtPriority : p.rtPriority = 99
  prio : p.prio = 90

/-- The task `q` is as its fork left it, and the calls for it leave it so. -/
structure StaysFifo (h : Header) (q : ℕ) (w : World) : Prop where
  task : AsForked (w.task q)
  asks : ∀ k f, w.call k = some f → f.pid = q → AsksFifo f.attr
  checked : ∀ k f c, w.call k = some f → f.pid = q → f.checked = some c → c.policy = .fifo

theorem asksFifo_setattrAttr (p : Task) (hattr : AsksFifo attr)
    (hkeep : attr.schedFlags.keepParams = false) :
    AsksFifo (setattrAttr h getparamDl p attr) := by
  have heq : setattrAttr h getparamDl p attr = { copyAttr h attr with
      schedPolicy := if attr.schedFlags.keepPolicy then .setparam else attr.schedPolicy } := by
    unfold setattrAttr
    dsimp only
    exact if_neg (by rw [copyAttr, hkeep]; simp)
  rw [heq]
  refine ⟨?_, hattr.2⟩
  show (if attr.schedFlags.keepPolicy then _ else _) = _ ∨
    (if attr.schedFlags.keepPolicy then _ else _) = _
  split
  · exact .inl rfl
  · exact hattr.1

variable {q : ℕ}

theorem StaysFifo.setTask {i : ℕ} (hw : StaysFifo h q w) (ht : i = q → AsForked t) :
    StaysFifo h q (w.setTask i t fresh) := by
  refine ⟨?_, hw.asks, hw.checked⟩
  by_cases hi : i = q
  · rw [World.setTask_task, hi, Function.update_self]
    exact ht hi
  · rw [World.setTask_task, Function.update_of_ne (Ne.symm hi)]
    exact hw.task

theorem StaysFifo.setCall {k : ℕ} {call : Option InFlight} (hw : StaysFifo h q w)
    (hasks : ∀ f, call = some f → f.pid = q → AsksFifo f.attr)
    (hchecked : ∀ f c, call = some f → f.pid = q → f.checked = some c → c.policy = .fifo) :
    StaysFifo h q (w.setCall k call) := by
  refine ⟨hw.task, fun j f hf => ?_, fun j f c hf => ?_⟩
  · by_cases hj : j = k
    · rw [hj, World.setCall_call, Function.update_self] at hf
      exact hasks f hf
    · rw [World.setCall_call, Function.update_of_ne hj] at hf
      exact hw.asks j f hf
  · by_cases hj : j = k
    · rw [hj, World.setCall_call, Function.update_self] at hf
      exact hchecked f c hf
    · rw [World.setCall_call, Function.update_of_ne hj] at hf
      exact hw.checked j f c hf

theorem StaysFifo.endCall (hw : StaysFifo h q w) (k : ℕ) : StaysFifo h q (w.setCall k none) :=
  hw.setCall (fun f hf => absurd hf (by simp)) fun f c hf => absurd hf (by simp)

/-- A nice value is stored, and not used. -/
theorem AsForked.niced {nice : ℤ} (hp : AsForked p) (ht : Niced h p nice t) : AsForked t := by
  cases ht with
  | same => exact hp
  | stored _ _ => exact ⟨hp.policy, hp.rtPriority, hp.prio⟩
  | used _ _ hrt =>
      rw [hp.policy, h.rtPolicy_fifo] at hrt
      cases hrt

/-- Such a request finds nothing to change. -/
theorem AsForked.changes {lock : LockContext} (hp : AsForked p) (hattr : AsksFifo attr) :
    changes h lock p attr .fifo = false := by
  have hfair : h.fairPolicy .fifo = false := fair_of_rt h.rtPolicy_fifo
  simp [Attributes.changes, hp.policy, hp.rtPriority, hattr.2.1, hattr.2.2, hfair]

theorem Step.staysFifo (hstep : Step h getparamDl w e w') (hw : StaysFifo h q w)
    (hevent : LeavesFifo q e) : StaysFifo h q w' := by
  have hniced : ∀ {p : ℕ} {nice : ℤ} {t : Task}, Niced h (w.task p) nice t → p = q →
      AsForked t := by
    rintro p nice t ht rfl
    exact hw.task.niced ht
  cases hstep with
  | fork hne ht => exact hw.setTask fun hq => absurd hq hevent
  | setUserNice ht => exact hw.setTask (hniced ht)
  | nice ht =>
      obtain ⟨nice, ht⟩ := niced_of_sysNice ht
      exact hw.setTask (hniced ht)
  | niceFails => exact hw
  | rtMutexSetprio => exact hw.setTask fun hq => absurd hq hevent
  | setscheduler =>
      refine hw.setCall ?_ fun f c hf _ hc => ?_
      · rintro f ⟨⟩ hq
        obtain ⟨hpolicy, hpriority⟩ := hevent hq
        exact ⟨hpolicy, hpriority, rfl⟩
      · obtain rfl := Option.some.inj hf
        cases hc
  | setattr =>
      refine hw.setCall ?_ fun f c hf _ hc => ?_
      · rintro f ⟨⟩ hq
        obtain ⟨hattr, hkeep⟩ := hevent hq
        exact asksFifo_setattrAttr _ hattr hkeep
      · obtain rfl := Option.some.inj hf
        cases hc
  | @check k p attr user ctx c hcall hpass =>
      have hasks : p = q → AsksFifo attr := hw.asks k _ hcall
      refine hw.setCall ?_ fun f c' hf hq hc => ?_
      · rintro f ⟨⟩ hq
        exact hasks hq
      · obtain rfl := Option.some.inj hf
        obtain rfl := Option.some.inj hc
        replace hq : p = q := hq
        obtain ⟨hpolicy, -⟩ := hasks hq
        rcases hpass.source with ⟨-, rfl⟩ | ⟨policy, hsame, rfl⟩
        · rw [hq]
          exact hw.task.policy
        · rw [hsame] at hpolicy
          simpa using hpolicy
  | checkFails => exact hw.endCall _
  | @recheck k p attr user lock c hcall =>
      have hasks : p = q → AsksFifo attr := hw.asks k _ hcall
      refine hw.setCall ?_ fun f c hf _ hc => ?_
      · rintro f ⟨⟩ hq
        exact hasks hq
      · obtain rfl := Option.some.inj hf
        cases hc
  | kept hcall =>
      refine StaysFifo.endCall (hw.setTask ?_) _
      rintro rfl
      exact ⟨hw.task.policy, hw.task.rtPriority, hw.task.prio⟩
  | @changed k p attr user lock c t hcall hchanges ht =>
      refine StaysFifo.endCall (hw.setTask ?_) _
      rintro rfl
      have hpolicy : c.policy = .fifo := hw.checked k _ c hcall rfl rfl
      rw [hpolicy, hw.task.changes (hw.asks k _ hcall rfl)] at hchanges
      cases hchanges
  | lockFails => exact hw.endCall _

/-- **Asking for 99 does not help.** A child stays at `prio` 90 as long as all that is asked
for it is what it reports, whatever nice values it gets and whatever else happens. -/
theorem fork_keeps_prio {current child : ℕ}
    (hcall : ∀ k f, w₀.call k = some f → f.pid ≠ child)
    (hrun : runFrom (step h getparamDl) w₀ (.fork current child :: es) = some w)
    (hevents : ∀ e ∈ es, LeavesFifo child e) :
    AsForked (w.task child) := by
  obtain ⟨w₁, hfork, hrun⟩ := runFrom_cons_iff.mp hrun
  have hstart : StaysFifo h child w₁ := by
    obtain ⟨-, heq⟩ := Option.ite_none_left_eq_some.mp hfork
    obtain ⟨t, ht, hforked⟩ :=
      schedFork_spec (h := h) (w₀.task current) (h.copyProcess (w₀.task current))
    rw [ht] at heq
    obtain rfl := Option.some.inj heq
    refine ⟨?_, fun k f hf hq => absurd hq (hcall k f hf),
      fun k f c hf hq => absurd hq (hcall k f hf)⟩
    rw [World.setTask_task, Function.update_self]
    exact ⟨hforked.policy, hforked.rtPriority, hforked.prio⟩
  have hend : StaysFifo h child w := by
    refine history_invariant_of (I := fun _ w => StaysFifo h child w) hstart ?_
      (throughout_of_forall hevents) hrun
    exact fun _ w e w' hevent hstep hw => (step_cases hstep).staysFifo hw hevent
  exact hend.task

/-- A privileged child that asks for 99 and gets a nice value. -/
def stubborn : List Event :=
  [.setscheduler 0 2 (.policy .fifo) false 99 true, .setUserNice 2 (-20),
    .check 0 ⟨true, 0, 0, true, none, none, true⟩, .lock 0 unlocked]

theorem fork_keeps_prio_stubborn : ∃ w,
    runFrom (step header noDl) initial (.fork 1 2 :: stubborn) = some w ∧
      AsForked (w.task 2) := by
  obtain ⟨w, hrun⟩ : ∃ w, runFrom (step header noDl) initial (.fork 1 2 :: stubborn) = some w :=
    ⟨_, rfl⟩
  refine ⟨w, hrun, fork_keeps_prio (fun k f hf => absurd hf (by simp [initial])) hrun ?_⟩
  intro e he
  simp only [stubborn, List.mem_cons, List.not_mem_nil, or_false] at he
  rcases he with rfl | rfl | rfl | rfl
  · exact fun _ => ⟨.inr rfl, rfl⟩
  · trivial
  · trivial
  · trivial

end OS2023.Sched.Attributes
