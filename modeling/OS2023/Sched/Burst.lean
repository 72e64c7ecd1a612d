import OS2023.Sched.Scheduler

/-!
# When the accumulated burst is right

What `__schedule` really records: the start stamp of a task is written when
some other task is resumed, so it lies before the moment the task itself was
switched in; a task that blocks records nothing; a new task starts from its
parent's values. The burst is therefore right as long as the task has completed
no stint and inherited nothing, and after its first completed stint it is not.
-/

namespace OS2023.Sched

open OS2023.Lib

variable {s s' : Sys} {p q next : Pid} {t₁ t₂ : ℕ} {preempt signalPending : Bool}

/-! ## Fields -/

@[simp] theorem Sys.set_task_self (s : Sys) (p : Pid) (t : Task) : (s.set p t).task p = t := by
  simp [Sys.set]

theorem Sys.set_task_of_ne (s : Sys) (t : Task) (h : q ≠ p) :
    (s.set p t).task q = s.task q := by
  simp [Sys.set, Function.update_of_ne h]

theorem Sys.set_curr (s : Sys) (p : Pid) (t : Task) : (s.set p t).curr = s.curr :=
  rfl

@[simp] theorem Sys.set_clock (s : Sys) (p : Pid) (t : Task) :
    (s.set p t).clock = s.clock :=
  rfl

/-- `deactivate` touches the state and the run queue only. -/
theorem deactivate_eq (preempt signalPending : Bool) (t : Task) :
    ∃ state onRq, deactivate preempt signalPending t =
      { t with state := state, onRq := onRq } ∧
      (state = t.state ∨ state = .running) ∧ (onRq = true → t.onRq = true) := by
  unfold deactivate
  split
  · split
    · exact ⟨.running, t.onRq, rfl, Or.inr rfl, id⟩
    · exact ⟨t.state, false, rfl, Or.inl rfl, by simp⟩
  · exact ⟨t.state, t.onRq, rfl, Or.inl rfl, id⟩

/-- `recordBurst` touches the burst only, and only of a running task. -/
theorem recordBurst_eq (t : ℕ) (prev : Task) :
    ∃ burst, recordBurst t prev = { prev with cpuBurst := burst } ∧
      (burst = prev.cpuBurst ∨ burst = sub64 t prev.cpuBurstStart) := by
  unfold recordBurst
  split
  · exact ⟨_, rfl, Or.inr rfl⟩
  · exact ⟨prev.cpuBurst, rfl, Or.inl rfl⟩

theorem stampStart_task (s : Sys) (frame : Option Pid) (t : ℕ) (p : Pid) :
    (stampStart s frame t).task p =
      { s.task p with
        cpuBurstStart := if frame = some p then t else (s.task p).cpuBurstStart } := by
  cases frame with
  | none => simp [stampStart]
  | some q =>
      by_cases hq : q = p
      · subst hq
        simp [stampStart]
      · have hne : some q ≠ some p := fun h => hq (Option.some.inj h)
        simp [stampStart, Sys.set_task_of_ne _ _ (Ne.symm hq), hne]

/-- The CPU has moved from `s.curr` to `next`: the task that left got a burst
and a frame, and the task named in the frame of `next` got a start stamp. -/
structure Switched (s : Sys) (preempt signalPending : Bool) (next : Pid) (t₁ t₂ : ℕ)
    (s' : Sys) : Prop where
  ne : s.curr ≠ next
  runnable : (s.task next).onRq = true
  clock_lt : s.clock < t₁
  lt : t₁ < t₂
  fits : t₂ < 2 ^ 64
  curr : s'.curr = next
  clock : s'.clock = t₂
  burst : (s'.task s.curr).cpuBurst =
    (recordBurst t₁ (deactivate preempt signalPending s.current)).cpuBurst
  burst_other : ∀ p, p ≠ s.curr → (s'.task p).cpuBurst = (s.task p).cpuBurst
  start : ∀ p, (s'.task p).cpuBurstStart =
    if (s.task next).frame = some p then t₂ else (s.task p).cpuBurstStart
  frame : ∀ p, (s'.task p).frame = if p = s.curr then some next else (s.task p).frame
  state : ∀ p, (s'.task p).state = (s.task p).state ∨ (s'.task p).state = .running
  onRq : ∀ p, (s'.task p).onRq = true → (s.task p).onRq = true

/-- **All that `__schedule` can do.** -/
theorem schedule_cases (h : schedule s preempt signalPending next t₁ t₂ = some s') :
    (s.curr = next ∧ s' = s.set s.curr (deactivate preempt signalPending s.current)) ∨
    Switched s preempt signalPending next t₁ t₂ s' := by
  obtain ⟨state, onRq, hdeact, hstate, honRq⟩ :=
    deactivate_eq preempt signalPending s.current
  unfold schedule at h
  simp only [show deactivate preempt signalPending (s.task s.curr) = _ from hdeact,
    Sys.set_task_self, Sys.set_clock] at h
  split at h
  · rename_i hrq
    split at h
    · rename_i heq
      rw [hdeact]
      exact Or.inl ⟨heq, (Option.some.inj h).symm⟩
    · rename_i hne
      split at h
      · rename_i hclock
        obtain ⟨burst, hburst, -⟩ := recordBurst_eq t₁
          { s.current with state := state, onRq := onRq }
        rw [hburst] at h
        rw [Sys.set_task_of_ne _ _ (Ne.symm hne)] at hrq
        -- the task that leaves, as `switch_to` finds it
        generalize hleft : ({ ({ ({ s.current with state := state, onRq := onRq } : Task) with
          cpuBurst := burst } : Task) with frame := some next } : Task) = left at h
        have hset : ∀ p, ((s.set s.curr { s.current with state := state, onRq := onRq }).set
            s.curr left).task p = if p = s.curr then left else s.task p := by
          intro p
          split
          · rename_i hp
            rw [hp, Sys.set_task_self]
          · rename_i hp
            rw [Sys.set_task_of_ne _ _ hp, Sys.set_task_of_ne _ _ hp]
        rw [hset next, if_neg (Ne.symm hne)] at h
        obtain rfl := Option.some.inj h
        right
        refine
          { ne := hne
            runnable := hrq
            clock_lt := hclock.1
            lt := hclock.2.1
            fits := hclock.2.2
            curr := rfl
            clock := rfl
            burst := ?_
            burst_other := fun p hp => ?_
            start := fun p => ?_
            frame := fun p => ?_
            state := fun p => ?_
            onRq := fun p => ?_ }
        all_goals simp only [stampStart_task, hset]
        · rw [if_pos trivial, ← hleft, hdeact, hburst]
        · rw [if_neg hp]
        · by_cases hp : p = s.curr
          · rw [if_pos hp, ← hleft, hp]
            rfl
          · rw [if_neg hp]
        · by_cases hp : p = s.curr
          · rw [if_pos hp, if_pos hp, ← hleft]
          · rw [if_neg hp, if_neg hp]
        · by_cases hp : p = s.curr
          · rw [if_pos hp, ← hleft, hp]
            exact hstate
          · rw [if_neg hp]
            exact Or.inl rfl
        · by_cases hp : p = s.curr
          · rw [if_pos hp, ← hleft, hp]
            exact honRq
          · rw [if_neg hp]
            exact id
      · exact absurd h (by simp)
  · exact absurd h (by simp)

/-! ## The log -/

variable {w w' : World} {e : Event}

theorem World.step_cases (h : w.step e = some w') :
    w.sys.step e = some w'.sys ∧ w'.log = w.log.step w.sys e := by
  unfold World.step at h
  rw [Option.bind_eq_bind] at h
  obtain ⟨s, hs, hw⟩ := Option.bind_eq_some_iff.mp h
  obtain rfl := Option.some.inj hw
  exact ⟨hs, rfl⟩

/-- What a switch enters for the task that leaves the CPU. -/
theorem log_switch_out (log : Log) (hne : s.curr ≠ next) :
    log.step s (.schedule preempt signalPending next t₁ t₂) s.curr =
      { log s.curr with
        stints := (log s.curr).stints + 1
        completed := (log s.curr).completed + (t₁ - (log s.curr).switchedIn) } := by
  rw [Log.step, if_neg hne, Function.update_of_ne hne, Function.update_self]

theorem log_switch_in (log : Log) (hne : s.curr ≠ next) :
    log.step s (.schedule preempt signalPending next t₁ t₂) next =
      { log next with switchedIn := t₂ } := by
  rw [Log.step, if_neg hne, Function.update_self, Function.update_of_ne (Ne.symm hne)]

theorem log_switch_other (log : Log) (hne : s.curr ≠ next) (hp : p ≠ s.curr)
    (hpn : p ≠ next) :
    log.step s (.schedule preempt signalPending next t₁ t₂) p = log p := by
  rw [Log.step, if_neg hne, Function.update_of_ne hpn, Function.update_of_ne hp]

/-! ## The invariant -/

variable {log : Log}

/-- What the record of one task says about its account. -/
structure Measured (t : Task) (a : Account) : Prop where
  never : a.stints = 0 → t.cpuBurst = a.parentBurst ∧ a.completed = 0
  once : a.stints = 1 → 0 < a.completed ∧
    (t.cpuBurst = a.parentBurst ∨ a.completed < t.cpuBurst)

structure Inv (s : Sys) (log : Log) : Prop where
  measured : ∀ p, Measured (s.task p) (log p)
  start_le : ∀ p, (s.task p).cpuBurstStart ≤ s.clock
  frame_ne : ∀ p, (s.task p).frame ≠ some p
  used : ∀ p, (s.task p).onRq = true → (s.task p).state ≠ .unused
  current_used : s.current.state ≠ .unused
  clock_lt : s.clock < 2 ^ 64
  switchedIn : (log s.curr).switchedIn = s.clock
  stamp_lt : s.current.cpuBurstStart < s.clock

/-- A change of one task's state and run-queue flag that leaves it in use. -/
theorem Inv.setState (h : Inv s log) (p : Pid) {state : TaskState} (onRq : Bool)
    (hstate : state ≠ .unused) :
    Inv (s.set p { s.task p with state := state, onRq := onRq }) log := by
  have hrec : ∀ q, ∃ st rq, (s.set p
      { s.task p with state := state, onRq := onRq }).task q =
      { s.task q with state := st, onRq := rq } ∧
      (st = state ∨ st = (s.task q).state ∧ rq = (s.task q).onRq) := by
    intro q
    by_cases hq : q = p
    · subst hq
      exact ⟨state, onRq, Sys.set_task_self _ _ _, Or.inl rfl⟩
    · exact ⟨_, _, Sys.set_task_of_ne _ _ hq, Or.inr ⟨rfl, rfl⟩⟩
  refine ⟨fun q => ?_, fun q => ?_, fun q => ?_, fun q => ?_, ?_, h.clock_lt, h.switchedIn, ?_⟩
  · obtain ⟨st, rq, hq, -⟩ := hrec q
    rw [hq]
    exact ⟨(h.measured q).never, (h.measured q).once⟩
  · obtain ⟨st, rq, hq, -⟩ := hrec q
    rw [hq]
    exact h.start_le q
  · obtain ⟨st, rq, hq, -⟩ := hrec q
    rw [hq]
    exact h.frame_ne q
  · obtain ⟨st, rq, hq, hst⟩ := hrec q
    rw [hq]
    rintro hrq
    rcases hst with rfl | ⟨rfl, rfl⟩
    · exact hstate
    · exact h.used q hrq
  · obtain ⟨st, rq, hq, hst⟩ := hrec s.curr
    show ((s.set p _).task s.curr).state ≠ _
    rw [hq]
    rcases hst with rfl | ⟨rfl, -⟩
    · exact hstate
    · exact h.current_used
  · obtain ⟨st, rq, hq, -⟩ := hrec s.curr
    show ((s.set p _).task s.curr).cpuBurstStart < _
    rw [hq]
    exact h.stamp_lt

theorem Inv.fork (h : Inv s log) {child : Pid} (hchild : (s.task child).state = .unused) :
    Inv (s.set child (schedFork s.current)) (log.step s (.fork child)) := by
  have hcurr : s.curr ≠ child := by
    rintro rfl
    exact h.current_used hchild
  have hcurrent : (s.set child (schedFork s.current)).current = s.current :=
    Sys.set_task_of_ne _ _ hcurr
  have hlog : ∀ q, q ≠ child → log.step s (.fork child) q = log q := fun q hq =>
    Function.update_of_ne hq _ _
  have hlogChild : log.step s (.fork child) child =
      ⟨0, 0, 0, s.current.cpuBurst⟩ := by
    simp [Log.step]
  refine ⟨fun q => ?_, fun q => ?_, fun q => ?_, fun q => ?_, ?_, h.clock_lt, ?_, ?_⟩
  · by_cases hq : q = child
    · subst hq
      rw [Sys.set_task_self, hlogChild]
      exact ⟨fun _ => ⟨rfl, rfl⟩, fun hone => absurd hone Nat.zero_ne_one⟩
    · rw [Sys.set_task_of_ne _ _ hq, hlog q hq]
      exact h.measured q
  · by_cases hq : q = child
    · subst hq
      rw [Sys.set_task_self]
      exact h.start_le s.curr
    · rw [Sys.set_task_of_ne _ _ hq]
      exact h.start_le q
  · by_cases hq : q = child
    · subst hq
      rw [Sys.set_task_self]
      simp [schedFork]
    · rw [Sys.set_task_of_ne _ _ hq]
      exact h.frame_ne q
  · by_cases hq : q = child
    · subst hq
      rw [Sys.set_task_self]
      simp [schedFork]
    · rw [Sys.set_task_of_ne _ _ hq]
      exact h.used q
  · rw [hcurrent]
    exact h.current_used
  · rw [Sys.set_curr, hlog _ hcurr]
    exact h.switchedIn
  · rw [hcurrent]
    exact h.stamp_lt

/-- The burst of a task that leaves the CPU while running counts from before it
was switched in. -/
theorem lt_sub64 {t start switchedIn : ℕ} (ht : t < 2 ^ 64) (hin : switchedIn < t)
    (hstart : start < switchedIn) : t - switchedIn < sub64 t start := by
  unfold sub64
  have hsplit : t + 2 ^ 64 - start = (t - start) + 2 ^ 64 := by omega
  rw [hsplit, Nat.add_mod_right, Nat.mod_eq_of_lt (by omega)]
  omega

/-- One more stint on the account of the task that leaves. -/
theorem Measured.switchOut {t : Task} {a : Account} (h : Measured t a) {start : ℕ}
    {burst : ℕ} (ht : t₁ < 2 ^ 64) (hin : a.switchedIn < t₁) (hstart : start < a.switchedIn)
    (hburst : burst = t.cpuBurst ∨ burst = sub64 t₁ start) {t' : Task}
    (ht' : t'.cpuBurst = burst) :
    Measured t' { a with
      stints := a.stints + 1
      completed := a.completed + (t₁ - a.switchedIn) } := by
  refine ⟨fun hzero => absurd hzero (Nat.succ_ne_zero _), fun hone => ?_⟩
  obtain ⟨hinherit, hzero⟩ := h.never (Nat.succ.inj hone)
  have hlt := lt_sub64 ht hin hstart
  simp only [hzero, Nat.zero_add, ht']
  refine ⟨Nat.sub_pos_of_lt hin, ?_⟩
  rcases hburst with rfl | rfl
  · exact Or.inl hinherit
  · exact Or.inr hlt

/-! ## A switch keeps the invariant -/

/-- A task that leaves keeps its burst, or gets one that counts from its stamp. -/
theorem Switched.burst_cases (h : Switched s preempt signalPending next t₁ t₂ s') :
    (s'.task s.curr).cpuBurst = s.current.cpuBurst ∨
      (s'.task s.curr).cpuBurst = sub64 t₁ s.current.cpuBurstStart := by
  obtain ⟨state, onRq, hdeact, -⟩ := deactivate_eq preempt signalPending s.current
  obtain ⟨burst, hburst, hcases⟩ := recordBurst_eq t₁
    { s.current with state := state, onRq := onRq }
  rw [h.burst, hdeact, hburst]
  exact hcases

theorem Switched.start_le (h : Switched s preempt signalPending next t₁ t₂ s')
    (hle : (s.task p).cpuBurstStart ≤ s.clock) : (s'.task p).cpuBurstStart ≤ s'.clock := by
  have := h.clock_lt
  have := h.lt
  rw [h.start, h.clock]
  split
  · exact Nat.le_refl t₂
  · omega

theorem Switched.measured (h : Switched s preempt signalPending next t₁ t₂ s')
    (hinv : Inv s log) (q : Pid) : Measured (s'.task q)
      (log.step s (.schedule preempt signalPending next t₁ t₂) q) := by
  have hq := hinv.measured q
  have hin := hinv.switchedIn
  have hclock := h.clock_lt
  have hlt := h.lt
  have hfits := h.fits
  by_cases hcurr : q = s.curr
  · subst hcurr
    rw [log_switch_out _ h.ne]
    refine hq.switchOut (by omega) (by omega) ?_ h.burst_cases rfl
    rw [hin]
    exact hinv.stamp_lt
  · have hburst := h.burst_other q hcurr
    by_cases hnext : q = next
    · subst hnext
      rw [log_switch_in _ h.ne]
      exact ⟨hburst ▸ hq.never, hburst ▸ hq.once⟩
    · rw [log_switch_other _ h.ne hcurr hnext]
      exact ⟨hburst ▸ hq.never, hburst ▸ hq.once⟩

theorem Switched.used (h : Switched s preempt signalPending next t₁ t₂ s')
    (hused : (s.task p).state ≠ .unused) : (s'.task p).state ≠ .unused := by
  rcases h.state p with heq | heq
  · rw [heq]
    exact hused
  · rw [heq]
    decide

theorem Switched.inv (h : Switched s preempt signalPending next t₁ t₂ s') (hinv : Inv s log) :
    Inv s' (log.step s (.schedule preempt signalPending next t₁ t₂)) where
  measured := h.measured hinv
  start_le := fun q => h.start_le (hinv.start_le q)
  frame_ne := by
    intro q
    rw [h.frame]
    split
    · rename_i hq
      exact fun heq => h.ne (hq.symm.trans (Option.some.inj heq).symm)
    · exact hinv.frame_ne q
  used := fun q hq => h.used (hinv.used q (h.onRq q hq))
  current_used := by
    show (s'.task s'.curr).state ≠ _
    rw [h.curr]
    exact h.used (hinv.used next h.runnable)
  clock_lt := by
    rw [h.clock]
    exact h.fits
  switchedIn := by rw [h.curr, log_switch_in _ h.ne, h.clock]
  stamp_lt := by
    -- the frame of `next` never names `next` itself
    show (s'.task s'.curr).cpuBurstStart < _
    have := h.clock_lt
    have := h.lt
    have := hinv.start_le next
    rw [h.curr, h.start, if_neg (hinv.frame_ne next), h.clock]
    omega

theorem Inv.switch (h : Inv s log)
    (hstep : schedule s preempt signalPending next t₁ t₂ = some s') :
    Inv s' (log.step s (.schedule preempt signalPending next t₁ t₂)) := by
  rcases schedule_cases hstep with ⟨heq, rfl⟩ | hswitched
  · -- the task goes on: only its state and run-queue flag can have changed
    obtain ⟨state, onRq, hdeact, hstate, -⟩ :=
      deactivate_eq preempt signalPending s.current
    have hlog : log.step s (.schedule preempt signalPending next t₁ t₂) = log :=
      if_pos heq
    rw [hlog, hdeact]
    refine h.setState s.curr onRq ?_
    rcases hstate with rfl | rfl
    · exact h.current_used
    · decide
  · exact hswitched.inv h

/-! ## Histories -/

theorem Inv.step (h : Inv w.sys w.log) (hstep : w.step e = some w') :
    Inv w'.sys w'.log := by
  obtain ⟨hs, hlog⟩ := World.step_cases hstep
  rw [hlog]
  cases e with
  | fork child =>
      simp only [Sys.step, Option.ite_none_right_eq_some, Option.some.injEq] at hs
      obtain ⟨⟨-, hchild⟩, hs⟩ := hs
      rw [← hs]
      exact h.fork hchild
  | setCurrentState block =>
      simp only [Sys.step, Option.ite_none_left_eq_some, Option.some.injEq] at hs
      rw [← hs.2]
      exact h.setState w.sys.curr _ (by cases block <;> decide)
  | wakeUp p =>
      simp only [Sys.step, Option.ite_none_right_eq_some, Option.some.injEq] at hs
      rw [← hs.2]
      exact h.setState p true (by decide)
  | schedule preempt signalPending next t₁ t₂ => exact h.switch hs
  | doExit =>
      simp only [Sys.step, Option.ite_none_left_eq_some, Option.some.injEq] at hs
      rw [← hs.2]
      exact h
  | doTaskDead =>
      simp only [Sys.step, Option.some.injEq] at hs
      rw [← hs]
      exact h.setState w.sys.curr _ (by decide)

theorem inv_init {boot : ℕ} (h₀ : 0 < boot) (h₁ : boot < 2 ^ 64) :
    Inv (World.init boot).sys (World.init boot).log := by
  have htask : ∀ p, ∃ state onRq, (World.init boot).sys.task p = ⟨state, onRq, 0, 0, none⟩ ∧
      (onRq = true → state ≠ .unused) := by
    intro p
    by_cases hp : p = 0
    · subst hp
      exact ⟨.running, true, rfl, fun _ => by decide⟩
    · refine ⟨.unused, false, ?_, by simp⟩
      simp [World.init, Function.update_of_ne hp]
  have hlog : ∀ p, ∃ n, (World.init boot).log p = ⟨n, 0, 0, 0⟩ := by
    intro p
    by_cases hp : p = 0
    · subst hp
      exact ⟨boot, rfl⟩
    · exact ⟨0, by simp [World.init, Function.update_of_ne hp]⟩
  refine ⟨fun p => ?_, fun p => ?_, fun p => ?_, fun p => ?_, ?_, h₁, rfl, h₀⟩
  · obtain ⟨state, onRq, ht, -⟩ := htask p
    obtain ⟨n, ha⟩ := hlog p
    rw [ht, ha]
    exact ⟨fun _ => ⟨rfl, rfl⟩, fun hone => absurd hone Nat.zero_ne_one⟩
  · obtain ⟨state, onRq, ht, -⟩ := htask p
    rw [ht]
    exact Nat.zero_le _
  · obtain ⟨state, onRq, ht, -⟩ := htask p
    rw [ht]
    simp
  · obtain ⟨state, onRq, ht, hused⟩ := htask p
    rw [ht]
    exact hused
  · show TaskState.running ≠ .unused
    decide

theorem inv_run {boot : ℕ} (h₀ : 0 < boot) (h₁ : boot < 2 ^ 64) {es : List Event}
    (hrun : run boot es = some w) : Inv w.sys w.log :=
  run_invariant (I := fun w => Inv w.sys w.log) (inv_init h₀ h₁)
    (fun _ _ _ hstep h => h.step hstep) hrun

/-! ## The burst at `do_exit` -/

/-- The running task has not been switched out since its fork, and its parent
had recorded no burst by then. -/
def Untouched (w : World) : Prop :=
  (w.log w.sys.curr).stints = 0 ∧ (w.log w.sys.curr).parentBurst = 0

instance (w : World) : Decidable (Untouched w) :=
  inferInstanceAs (Decidable (_ ∧ _))

/-- `Q` holds whenever a task enters `do_exit` in the history `es`. -/
def AtExits (boot : ℕ) (es : List Event) (Q : World → Prop) : Prop :=
  ∀ before after w, es = before ++ .doExit :: after → run boot before = some w → Q w

/-- **When the burst is right.** In every history in which the tasks that enter
`do_exit` are untouched, their burst is what they have accumulated. The
condition cannot be relaxed at either end: for a task that has completed no
stint the burst is right only when its parent had recorded none, and after one
completed stint of a task that inherited nothing it is wrong. -/
theorem burst_accumulated {boot : ℕ} (h₀ : 0 < boot) (h₁ : boot < 2 ^ 64)
    (es : List Event) :
    (AtExits boot es Untouched → AtExits boot es Accumulated) ∧
    AtExits boot es (fun w => (w.log w.sys.curr).stints = 0 →
      (Accumulated w ↔ Untouched w)) ∧
    AtExits boot es (fun w => (w.log w.sys.curr).stints = 1 →
      (w.log w.sys.curr).parentBurst = 0 → ¬Accumulated w) := by
  have hexact : ∀ w, Inv w.sys w.log → (w.log w.sys.curr).stints = 0 →
      (Accumulated w ↔ Untouched w) := by
    intro w h hzero
    obtain ⟨hburst, hcompleted⟩ := (h.measured w.sys.curr).never hzero
    rw [Accumulated, Untouched, hcompleted]
    show (w.sys.task w.sys.curr).cpuBurst = 0 ↔ _
    rw [hburst]
    exact ⟨fun hp => ⟨hzero, hp⟩, fun hu => hu.2⟩
  refine ⟨fun hall before after w hes hrun => ?_, fun before after w hes hrun => ?_,
    fun before after w hes hrun hone hparent hacc => ?_⟩
  · have hu := hall before after w hes hrun
    exact (hexact w (inv_run h₀ h₁ hrun) hu.1).mpr hu
  · exact hexact w (inv_run h₀ h₁ hrun)
  · obtain ⟨hpos, hburst⟩ := ((inv_run h₀ h₁ hrun).measured w.sys.curr).once hone
    change (w.sys.task w.sys.curr).cpuBurst = _ at hacc
    rw [hacc, hparent] at hburst
    omega

/-- A child that runs and exits without being switched out. -/
def straightHistory : List Event :=
  [.fork 1, .wakeUp 1, .schedule true false 1 10 11, .doExit]

theorem burst_accumulated_straight : AtExits 1 straightHistory Accumulated := by
  refine (burst_accumulated (by decide) (by decide) straightHistory).1 ?_
  intro before after w hes hrun
  -- the only exit is the last event
  rcases before with _ | ⟨a, _ | ⟨b, _ | ⟨c, _ | ⟨d, rest⟩⟩⟩⟩
  all_goals simp [straightHistory] at hes
  obtain ⟨rfl, rfl, rfl, rfl⟩ := hes
  obtain rfl := Option.some.inj hrun
  decide

/-- A child that is preempted once and then exits: its one stint took 9 units
of time, its burst is 20. -/
def preemptedHistory : List Event :=
  [.fork 1, .wakeUp 1, .schedule true false 1 10 11, .schedule true false 0 20 21,
    .schedule true false 1 30 31, .doExit]

theorem not_accumulated_preempted : ¬AtExits 1 preemptedHistory Accumulated := by
  intro h
  have hrun : ∃ w, run 1 (preemptedHistory.take 5) = some w ∧ ¬Accumulated w := by
    refine ⟨_, rfl, ?_⟩
    decide
  obtain ⟨w, hw, hnot⟩ := hrun
  exact hnot (h (preemptedHistory.take 5) [] w rfl hw)

end OS2023.Sched
