import OS2023.Sched.Requests

/-!
# What callers without privileges can get

Without `CAP_SYS_NICE` the checks of `__sched_setscheduler` let a task go down, but not
up again past its resource limits. The checks are made against a task that others may
change before the request is carried out, so it has to be shown that no interleaving of
requests gets past them. A `fork` does: every child starts at the highest real-time
priority, and the checks let it go anywhere below.
-/

namespace OS2023.Sched.Attributes

open OS2023.Lib

variable {h : Header} {getparamDl : Task → Flags → ℕ × Flags} {w₀ w w' : World} {e : Event}

/-- Bounds for `RLIMIT_NICE` and `RLIMIT_RTPRIO` of each task. -/
structure Rlimits where
  nice : ℕ → ℕ
  rtprio : ℕ → ℕ

/-- The event is a step of callers without privileges, and no fork. -/
def Unprivileged (r : Rlimits) (w : World) : Event → Prop
  | .fork _ _ => False
  | .setUserNice _ _ => False
  | .nice p _ ctx => ctx.capSysNice = false ∧ ctx.rlimitNice ≤ r.nice p
  | .rtMutexSetprio _ _ _ => True
  | .setscheduler _ _ _ _ _ user => user = true
  | .setattr _ _ _ => True
  | .check k ctx => ctx.capSysNice = false ∧ ∀ f, w.call k = some f →
      ctx.rlimitNice ≤ r.nice f.pid ∧ ctx.rlimitRtprio ≤ r.rtprio f.pid
  | .lock _ _ => True

/-- What the task number `i` may have become, if it was `p₀`. -/
structure Entitled (h : Header) (r : Rlimits) (i : ℕ) (p₀ p : Task) : Prop where
  rtPriority : p.rtPriority ≤ max p₀.rtPriority (r.rtprio i)
  nice : min (taskNice h p₀) (20 - r.nice i) ≤ taskNice h p
  dl : h.dlPolicy p.policy = true → h.dlPolicy p₀.policy = true
  rt : r.rtprio i = 0 → h.rtPolicy p.policy = true → p.policy = p₀.policy

/-- What a request that has passed the checks may ask for. -/
structure Asks (h : Header) (r : Rlimits) (i : ℕ) (p₀ : Task) (attr : Attr)
    (c : Checked) : Prop where
  priority : attr.schedPriority ≤ max p₀.rtPriority (r.rtprio i)
  nice : h.fairPolicy c.policy = true → min (taskNice h p₀) (20 - r.nice i) ≤ attr.schedNice
  dl : h.dlPolicy c.policy = false
  rt : r.rtprio i = 0 → h.rtPolicy c.policy = true → c.policy = p₀.policy

theorem Entitled.refl (r : Rlimits) (i : ℕ) (p : Task) : Entitled h r i p p :=
  ⟨le_max_left _ _, min_le_left _ _, id, fun _ _ => rfl⟩

/-! ## One request -/

variable {r : Rlimits} {i : ℕ} {p₀ p t : Task} {ctx : Context} {attr : Attr} {c : Checked}
  {user : Bool} {donor : Option ℤ}

/-- A nice value that `can_nice` allows lies within the limit. -/
theorem le_of_canNice {nice : ℤ} (hcap : ctx.capSysNice = false)
    (hlimit : ctx.rlimitNice ≤ r.nice i) (hcan : canNice h ctx nice = true) :
    20 - r.nice i ≤ nice := by
  rw [canNice, hcap, Bool.or_false, decide_eq_true_iff, h.niceToRlimit_eq, h.maxNice_eq] at hcan
  omega

/-- **The checks bound what is asked for**, by the task as it is now. -/
theorem asks_of_passes (hp : Entitled h r i p₀ p) (hcap : ctx.capSysNice = false)
    (hnice : ctx.rlimitNice ≤ r.nice i) (hrtprio : ctx.rlimitRtprio ≤ r.rtprio i)
    (hpass : Passes h ctx p attr true c) : Asks h r i p₀ attr c := by
  have hallowed := hpass.allowed rfl hcap
  simp only [deniesUnprivileged, Bool.or_eq_false_iff] at hallowed
  obtain ⟨⟨⟨⟨⟨⟨hfair, hpolicy⟩, hpriority⟩, hdl⟩, -⟩, -⟩, -⟩ := hallowed
  constructor
  · cases hrt : h.rtPolicy c.policy with
    | false =>
        have hzero : attr.schedPriority = 0 := by
          by_contra hne
          rw [hpass.rt.mpr hne] at hrt
          cases hrt
        rw [hzero]
        exact Nat.zero_le _
    | true =>
        have hold := hp.rtPriority
        rw [hrt] at hpriority
        by_cases hle : attr.schedPriority ≤ p.rtPriority
        · exact hle.trans hold
        · have hlimit : attr.schedPriority ≤ ctx.rlimitRtprio := by
            simpa [Nat.not_le.mp hle] using hpriority
          exact (hlimit.trans hrtprio).trans (le_max_right _ _)
  · intro hpolicyFair
    rw [hpolicyFair] at hfair
    by_cases hle : taskNice h p ≤ attr.schedNice
    · exact hp.nice.trans hle
    · have hcan : canNice h ctx attr.schedNice = true := by
        simpa [Int.not_le.mp hle] using hfair
      exact (min_le_right _ _).trans (le_of_canNice hcap hnice hcan)
  · exact hdl
  · intro hzero hrt
    have hsame : c.policy = p.policy := by
      have hlimit : ctx.rlimitRtprio = 0 := by omega
      simpa [hrt, hlimit] using hpolicy
    rw [hsame]
    exact hp.rt hzero (hsame ▸ hrt)

theorem Entitled.changed (hp : Entitled h r i p₀ p) (hasks : Asks h r i p₀ attr c)
    (ht : Changed h donor p attr true c t) : Entitled h r i p₀ t := by
  constructor
  · rw [ht.rtPriority]
    exact hasks.priority
  · rw [ht.nice]
    split
    · exact hasks.nice ‹_›
    · exact hp.nice
  · rw [ht.policy, hasks.dl]
    exact fun hfalse => absurd hfalse (by simp)
  · rw [ht.policy]
    exact hasks.rt

/-- A change of the nice value alone. -/
theorem Entitled.niced {nice : ℤ} (hp : Entitled h r i p₀ p)
    (hnice : min (taskNice h p₀) (20 - r.nice i) ≤ nice) (ht : Niced h p nice t) :
    Entitled h r i p₀ t := by
  cases ht with
  | same => exact hp
  | stored _ _ =>
      exact ⟨hp.rtPriority, hnice.trans (taskNice_of_static rfl).ge, hp.dl, hp.rt⟩
  | used _ _ _ =>
      exact ⟨hp.rtPriority, hnice.trans (taskNice_of_static rfl).ge, hp.dl, hp.rt⟩

theorem Entitled.sysNice {increment : ℤ} (hp : Entitled h r i p₀ p)
    (hrange : NiceInRange h (taskNice h p)) (hcap : ctx.capSysNice = false)
    (hlimit : ctx.rlimitNice ≤ r.nice i)
    (ht : sysNice h ctx p increment = .ok t) : Entitled h r i p₀ t := by
  unfold Attributes.sysNice at ht
  dsimp only at ht
  split at ht
  · cases ht
  · rename_i hdenied
    split at ht
    · cases ht
    · obtain rfl := Except.ok.inj ht
      refine hp.niced ?_ (setUserNice_spec h p _)
      by_cases hneg : max (-h.niceWidth) (min increment h.niceWidth) < 0
      · have hcan := fun hfalse => hdenied ⟨hneg, hfalse⟩
        exact (min_le_right _ _).trans
          (le_of_canNice hcap hlimit (Bool.eq_true_of_not_eq_false hcan))
      · refine hp.nice.trans ((le_min ?_ hrange.2).trans (le_max_right _ _))
        omega

theorem Entitled.boosted (hp : Entitled h r i p₀ p) (donor : Option (ℕ × ℤ)) (isIdle : Bool) :
    Entitled h r i p₀ (rtMutexSetprio h p donor isIdle) := by
  unfold rtMutexSetprio
  dsimp only
  split
  · exact ⟨hp.rtPriority, hp.nice, hp.dl, hp.rt⟩
  · split
    · exact ⟨hp.rtPriority, hp.nice, hp.dl, hp.rt⟩
    · exact ⟨hp.rtPriority, hp.nice, hp.dl, hp.rt⟩

/-! ## Any interleaving -/

/-- The tasks have what they are entitled to, and no call asks for more. -/
structure Bounded (h : Header) (r : Rlimits) (w₀ w : World) : Prop where
  sound : Sound h w
  task : ∀ i, Entitled h r i (w₀.task i) (w.task i)
  user : ∀ k f, w.call k = some f → f.user = true
  asks : ∀ k f c, w.call k = some f → f.checked = some c →
    Asks h r f.pid (w₀.task f.pid) f.attr c

theorem Bounded.setTask (hw : Bounded h r w₀ w) {p : ℕ} {fresh : Bool}
    (hsound : SoundTask h t fresh) (ht : Entitled h r p (w₀.task p) t) :
    Bounded h r w₀ (w.setTask p t fresh) := by
  refine ⟨hw.sound.setTask hsound, fun i => ?_, hw.user, hw.asks⟩
  by_cases hi : i = p
  · subst hi
    rw [World.setTask_task, Function.update_self]
    exact ht
  · rw [World.setTask_task, Function.update_of_ne hi]
    exact hw.task i

theorem Bounded.setCall (hw : Bounded h r w₀ w) {k : ℕ} {f : InFlight}
    (hsound : SoundCall h f) (huser : f.user = true)
    (hasks : ∀ c, f.checked = some c → Asks h r f.pid (w₀.task f.pid) f.attr c) :
    Bounded h r w₀ (w.setCall k (some f)) := by
  refine ⟨hw.sound.setCall ?_, hw.task, fun j f' hf' => ?_, fun j f' c hf' hc => ?_⟩
  · rintro f' ⟨⟩
    exact hsound
  · by_cases hj : j = k
    · rw [hj, World.setCall_call, Function.update_self] at hf'
      exact Option.some.inj hf' ▸ huser
    · rw [World.setCall_call, Function.update_of_ne hj] at hf'
      exact hw.user j f' hf'
  · by_cases hj : j = k
    · rw [hj, World.setCall_call, Function.update_self] at hf'
      obtain rfl := Option.some.inj hf'
      exact hasks c hc
    · rw [World.setCall_call, Function.update_of_ne hj] at hf'
      exact hw.asks j f' c hf' hc

theorem Bounded.endCall (hw : Bounded h r w₀ w) (k : ℕ) :
    Bounded h r w₀ (w.setCall k none) := by
  have hkeep : ∀ j f, (w.setCall k none).call j = some f → w.call j = some f := by
    intro j f hf
    by_cases hj : j = k
    · rw [hj, World.setCall_call, Function.update_self] at hf
      cases hf
    · rwa [World.setCall_call, Function.update_of_ne hj] at hf
  exact ⟨hw.sound.endCall k, hw.task, fun j f hf => hw.user j f (hkeep j f hf),
    fun j f c hf => hw.asks j f c (hkeep j f hf)⟩

theorem Step.bounded (hstep : Step h getparamDl w e w') (hw : Bounded h r w₀ w)
    (hevent : Unprivileged r w e) : Bounded h r w₀ w' := by
  have hsound := hstep.sound hw.sound
  cases hstep with
  | fork _ _ => exact absurd hevent id
  | setUserNice _ => exact absurd hevent id
  | @nice p increment ctx t ht =>
      obtain ⟨nice, hniced⟩ := niced_of_sysNice ht
      exact hw.setTask ((hw.sound.task p).niced hniced)
        ((hw.task p).sysNice (hw.sound.task p).nice hevent.1 hevent.2 ht)
  | niceFails => exact hw
  | rtMutexSetprio =>
      exact hw.setTask ((hw.sound.task _).boosted _ _) ((hw.task _).boosted _ _)
  | setscheduler =>
      refine hw.setCall ?_ hevent (by simp)
      exact ⟨(hw.sound.task _).nice, by simp, by simp, by simp⟩
  | setattr =>
      refine hw.setCall ?_ rfl (by simp)
      exact ⟨niceInRange_setattrAttr (hw.sound.task _).nice _, by simp, by simp, by simp⟩
  | @check k p attr user ctx c hcall hpass =>
      have huser : user = true := hw.user k _ hcall
      subst huser
      obtain ⟨hnice, hrtprio⟩ := hevent.2 _ hcall
      refine hw.setCall (hsound.call k _ ?_) rfl ?_
      · rw [World.setCall_call, Function.update_self]
      · rintro c' ⟨⟩
        exact asks_of_passes (hw.task p) hevent.1 hnice hrtprio hpass
  | checkFails => exact hw.endCall _
  | @recheck k p attr user lock c hcall =>
      have huser := hw.user k _ hcall
      refine hw.setCall (hsound.call k _ ?_) huser (by simp)
      rw [World.setCall_call, Function.update_self]
  | @kept k p attr user lock c hcall =>
      have htask := hw.task p
      refine Bounded.endCall (hw.setTask ?_ ?_) _
      · exact ⟨(hw.sound.task p).schedClass, (hw.sound.task p).nice, (hw.sound.task p).rt,
          (hw.sound.task p).rtPriority_le, (hw.sound.task p).of_fresh,
          (hw.sound.task p).normalPrio⟩
      · exact ⟨htask.rtPriority, htask.nice, htask.dl, htask.rt⟩
  | @changed k p attr user lock c t hcall _ ht =>
      have hf := hw.sound.call k _ hcall
      have hchanged := ht (hf.resolved c rfl)
      refine Bounded.endCall (hw.setTask ?_ ?_) _
      · exact (hw.sound.task p).changed hf.nice (hf.priority_le c rfl) (hf.rt c rfl) hchanged
      · exact (hw.task p).changed (hw.asks k _ c hcall rfl) hchanged
  | lockFails => exact hw.endCall _

/-- **No interleaving of unprivileged requests gets past the limits.** The priority stays
below the one at the start or the limit, the nice value above the one at the start or the
limit; nobody becomes a deadline task; and with the limit 0 nobody gets a real-time
policy that he did not have. -/
theorem unprivileged_bounds {es : List Event} (hsound : Sound h w₀)
    (hcall : ∀ k, w₀.call k = none) (hrun : runFrom (step h getparamDl) w₀ es = some w)
    (hevents : Throughout (step h getparamDl) w₀ (Unprivileged r) es) (i : ℕ) :
    Entitled h r i (w₀.task i) (w.task i) := by
  have hw : Bounded h r w₀ w := by
    refine history_invariant_of (I := fun _ w => Bounded h r w₀ w) ?_ ?_ hevents hrun
    · refine ⟨hsound, fun i => Entitled.refl r i _, fun k f hf => ?_, fun k f c hf => ?_⟩
      · rw [hcall k] at hf
        cases hf
      · rw [hcall k] at hf
        cases hf
    · exact fun _ w e w' hevent hstep hw => (step_cases hstep).bounded hw hevent
  exact hw.task i

/-- A task that lowers itself from a real-time policy, and a request from before that is
carried out after it. -/
def overtaken : List Event :=
  [.setscheduler 0 2 (.policy .fifo) false 5 true, .check 0 owner,
    .setscheduler 1 2 (.policy .normal) false 0 true, .check 1 owner, .lock 1 unlocked,
    .lock 0 unlocked]

/-- Task 2 is at the real-time priority 10. -/
def realTime : World :=
  { initial with
    task := Function.update initial.task 2 ⟨.fifo, 120, 10, 89, 89, .rt, false, none⟩ }

theorem sound_realTime : Sound header realTime := by
  refine ⟨fun p => ?_, fun k f hf => absurd hf (by simp [realTime, initial])⟩
  by_cases hp : p = 2
  · rw [realTime, hp]
    exact ⟨by decide, by decide, by decide, by decide, by simp [initial], fun _ => by decide⟩
  · simp only [realTime, Function.update_of_ne hp]
    exact sound_initTask

theorem unprivileged_bounds_overtaken : ∃ w,
    runFrom (step header noDl) realTime overtaken = some w ∧ (w.task 2).rtPriority = 5 ∧
      ∀ i, Entitled header ⟨fun _ => 0, fun _ => 0⟩ i (realTime.task i) (w.task i) := by
  obtain ⟨w, hrun, hrt⟩ : ∃ w, runFrom (step header noDl) realTime overtaken = some w ∧
      (w.task 2).rtPriority = 5 := ⟨_, rfl, rfl⟩
  refine ⟨w, hrun, hrt, unprivileged_bounds sound_realTime (fun _ => rfl) hrun ?_⟩
  intro before e after w hes _
  have hmem : e ∈ overtaken := hes ▸ by simp
  simp only [overtaken, List.mem_cons, List.not_mem_nil, or_false] at hmem
  rcases hmem with rfl | rfl | rfl | rfl | rfl | rfl
  · rfl
  · exact ⟨rfl, fun _ _ => ⟨Nat.le_refl 0, Nat.le_refl 0⟩⟩
  · rfl
  · exact ⟨rfl, fun _ _ => ⟨Nat.le_refl 0, Nat.le_refl 0⟩⟩
  · trivial
  · trivial

/-! ## Forks -/

theorem fair_of_rt {policy : Policy} (hrt : h.rtPolicy policy = true) :
    h.fairPolicy policy = false := by
  by_contra hfair
  rw [h.not_rt_of_fair policy (Bool.eq_true_of_not_eq_false hfair)] at hrt
  cases hrt

variable {lock : LockContext} {j : ℕ}

/-- The owner of a fresh task may ask for any priority. -/
theorem check_of_fresh (hpolicy : p.policy = .fifo) (hpriority : p.rtPriority = 99)
    (hreset : p.schedResetOnFork = false) (hlo : 0 < j) (hhi : j ≤ 99)
    (howner : ctx.sameOwner = true) (hsecurity : ctx.security = none) :
    check h ctx p (setschedulerAttr h p (.policy .fifo) false j) true =
      .ok ⟨.fifo, false, false⟩ := by
  have hfair : h.fairPolicy .fifo = false := fair_of_rt h.rtPolicy_fifo
  have hmax : ¬(j : ℤ) > h.maxRtPrio - 1 := by
    rw [h.maxRtPrio_eq]
    omega
  have hne : j ≠ 0 := by omega
  have hle : ¬99 < j := by omega
  simp [check, resolve, verify, setschedulerAttr, deniesUnprivileged, hfair, hmax, hne, hle,
    hpolicy, hpriority, hreset, howner, hsecurity, raise, bind, Except.bind, pure, Except.pure]

/-- A request for `SCHED_FIFO` of a fresh task is carried out, and changes the task unless
the priority is the one that it has. -/
theorem locked_of_fresh (ht : Forked h p t) (hstop : lock.isStop = false)
    (hgroup : lock.groupDenies = false) :
    ∃ t', (locked h lock none t (setschedulerAttr h t (.policy .fifo) false j) true true
        ⟨.fifo, false, false⟩ = if j = 99 then .kept t' else .changed t') ∧
      t'.policy = .fifo ∧ t'.rtPriority = j ∧
      t'.prio = if j = 99 then 90 else 99 - (j : ℤ) := by
  have hfair : h.fairPolicy .fifo = false := fair_of_rt h.rtPolicy_fifo
  have hdl : h.dlPrio 90 = false := by
    rw [← Bool.not_eq_true, dlPrio_iff]
    decide
  by_cases hj : j = 99
  · refine ⟨{ t with schedResetOnFork := false }, ?_, ht.policy, ?_, ?_⟩
    · simp [locked, changes, setschedulerAttr, hstop, hfair, ht.policy, ht.rtPriority, hj]
    · rw [hj]
      exact ht.rtPriority
    · rw [if_pos hj]
      exact ht.prio
  · have hlocked : locked h lock none t (setschedulerAttr h t (.policy .fifo) false j) true true
        ⟨.fifo, false, false⟩ =
        .changed (setschedulerPrio h (setschedulerParams h { t with schedResetOnFork := false }
          (setschedulerAttr h t (.policy .fifo) false j))
          (rtEffectivePrio none (normalPrioOf h .fifo j (h.prioToNice t.staticPrio)))) := by
      simp [locked, changes, setschedulerAttr, hstop, hgroup, hfair, ht.policy, ht.rtPriority,
        ht.prio, hdl, hj]
    have hchanged := changed_of_locked (.inr ⟨rfl, rfl⟩) hlocked
    refine ⟨_, hlocked.trans (if_neg hj).symm, hchanged.policy, hchanged.rtPriority, ?_⟩
    rw [hchanged.prio, if_neg hj, normalPrioOf_rt h.rtPolicy_fifo]
    rfl

/-- **A fork lifts every limit.** Whatever the task `p` is and however low the limits are,
its child gets any real-time priority that its owner asks for. -/
theorem fork_escapes {p c k : ℕ} (hne : c ≠ p) (hcall : w.call k = none) (hlo : 0 < j)
    (hhi : j ≤ 99) (howner : ctx.sameOwner = true) (hsecurity : ctx.security = none)
    (hstop : lock.isStop = false) (hgroup : lock.groupDenies = false) :
    ∃ w', runFrom (step h getparamDl) w [.fork p c,
        .setscheduler k c (.policy .fifo) false j true, .check k ctx, .lock k lock] = some w' ∧
      (w'.task c).policy = .fifo ∧ (w'.task c).rtPriority = j ∧
      (w'.task c).prio = if j = 99 then 90 else 99 - (j : ℤ) := by
  obtain ⟨t, hfork, ht⟩ := schedFork_spec (h := h) (w.task p) (h.copyProcess (w.task p))
  have hchild : step h getparamDl w (.fork p c) = some (w.setTask c t true) := by
    simp only [step, hfork]
    exact if_neg hne
  have htask : (w.setTask c t true).task c = t := Function.update_self _ _ _
  have htop : (w.setTask c t true).topPrio c = none := by
    rw [World.topPrio, htask, ht.piTopTask, h.copyProcess_piTopTask]
    rfl
  obtain ⟨t', hlocked, hpolicy, hpriority, hprio⟩ :=
    locked_of_fresh (j := j) ht hstop hgroup
  have hcheck := check_of_fresh (h := h) ht.policy ht.rtPriority ht.schedResetOnFork hlo hhi howner
    hsecurity
  have hcases : (if j = 99 then Locked.kept t' else .changed t') = .kept t' ∨
      (if j = 99 then Locked.kept t' else .changed t') = .changed t' := by
    by_cases hj : j = 99
    · exact .inl (if_pos hj)
    · exact .inr (if_neg hj)
  rw [← hlocked, ← htask, ← htop] at hcases
  rw [← htask] at hcheck
  obtain ⟨w', hrun, htask'⟩ : ∃ w', runFrom (step h getparamDl) (w.setTask c t true)
      [.setscheduler k c (.policy .fifo) false j true, .check k ctx, .lock k lock] = some w' ∧
        w'.task = Function.update (w.setTask c t true).task c t' :=
    run_setscheduler hcall rfl hcheck hcases
  refine ⟨w', runFrom_cons hchild hrun, ?_⟩
  rw [htask', Function.update_self]
  exact ⟨hpolicy, hpriority, hprio⟩

/-- A nice task without any rights has a child at the highest priority but one. -/
theorem fork_escapes_owner : ∃ w', runFrom (step header noDl) initial [.fork 1 2,
      .setscheduler 0 2 (.policy .fifo) false 98 true, .check 0 owner, .lock 0 unlocked] =
        some w' ∧ (w'.task 2).policy = .fifo ∧ (w'.task 2).rtPriority = 98 ∧
      (w'.task 2).prio = if 98 = 99 then 90 else 99 - ((98 : ℕ) : ℤ) :=
  fork_escapes (by decide) rfl (by decide) (by decide) rfl rfl rfl rfl

end OS2023.Sched.Attributes
