import OS2023.Sched.Burst

/-!
# Whose start stamp a switch writes

The statement behind `context_switch` runs on the stack of the task that was
resumed, and `next` is there the task to which that task once gave the CPU. No
task gives the CPU to itself, so the stamp never goes to the task that is now
running: it goes to another one, or, when the task runs for the first time, to
none.
-/

namespace OS2023.Sched

open OS2023.Lib

variable {boot : ℕ} {es : List Event} {w w' : World} {e : Event} {p next : Pid}

/-- The event takes the CPU from the running task to another. -/
def IsSwitch (s : Sys) : Event → Prop
  | .schedule _ _ next _ _ => s.curr ≠ next
  | _ => False

/-- `Q` holds of every switch in the history: of the state in front of it, the
event and the state behind it. -/
def AtSwitches (boot : ℕ) (es : List Event) (Q : World → Event → World → Prop) : Prop :=
  ∀ before e after w w', es = before ++ e :: after → run boot before = some w →
    w.step e = some w' → IsSwitch w.sys e → Q w e w'

def HasSwitch (boot : ℕ) (es : List Event) : Prop :=
  ∃ before e after w w', es = before ++ e :: after ∧ run boot before = some w ∧
    w.step e = some w' ∧ IsSwitch w.sys e

/-- The running task is stamped with the time at which it was switched in. -/
def Stamped (w : World) : Prop :=
  w.sys.current.cpuBurstStart = (w.log w.sys.curr).switchedIn

instance (w : World) : Decidable (Stamped w) :=
  inferInstanceAs (Decidable (_ = _))

/-- Only the task that is switched in may get a new stamp. -/
def StampsNoOther (w : World) (_ : Event) (w' : World) : Prop :=
  ∀ p, p ≠ w'.sys.curr → (w'.sys.task p).cpuBurstStart = (w.sys.task p).cpuBurstStart

/-- The task that the event resumes is suspended in no `__schedule`. -/
def ResumesNew (w : World) (_ : Event) (w' : World) : Prop :=
  (w.sys.task w'.sys.curr).frame = none

/-- From the first switch on the running task is stamped, and no switch stamps
another task. -/
structure StampsCorrect (boot : ℕ) (es : List Event) : Prop where
  running : ∀ before after w, es = before ++ after → HasSwitch boot before →
    run boot before = some w → Stamped w
  others : AtSwitches boot es StampsNoOther

/-! ## One switch -/

/-- A switch is a successful `__schedule` that changes the running task. -/
theorem switched_of_isSwitch (hstep : w.step e = some w') (hswitch : IsSwitch w.sys e) :
    ∃ preempt signalPending t₁ t₂,
      Switched w.sys preempt signalPending w'.sys.curr t₁ t₂ w'.sys := by
  cases e with
  | schedule preempt signalPending next t₁ t₂ =>
      rcases schedule_cases (World.step_cases hstep).1 with ⟨heq, -⟩ | hswitched
      · exact absurd heq hswitch
      · have hcurr := hswitched.curr
        rw [← hcurr] at hswitched
        exact ⟨preempt, signalPending, t₁, t₂, hswitched⟩
  | _ => exact absurd hswitch id

/-- **A switch stamps another task exactly when the task it resumes was switched
out before.** -/
theorem stampsNoOther_iff (hinv : Inv w.sys w.log) (hstep : w.step e = some w')
    (hswitch : IsSwitch w.sys e) : StampsNoOther w e w' ↔ ResumesNew w e w' := by
  obtain ⟨preempt, signalPending, t₁, t₂, h⟩ := switched_of_isSwitch hstep hswitch
  constructor
  · intro hsame
    cases hframe : (w.sys.task w'.sys.curr).frame with
    | none => exact hframe
    | some p =>
        have hne : p ≠ w'.sys.curr := by
          rintro rfl
          exact hinv.frame_ne _ hframe
        -- the new stamp is later than all stamps so far
        have hstart := h.start p
        rw [if_pos hframe, hsame p hne] at hstart
        have hle := hinv.start_le p
        have hclock := h.clock_lt
        have hlt := h.lt
        omega
  · intro hnew p _
    rw [h.start, if_neg]
    rw [show (w.sys.task w'.sys.curr).frame = none from hnew]
    exact (Option.some_ne_none p).symm

/-! ## Histories -/

theorem HasSwitch.append {before : List Event} (h : HasSwitch boot before)
    (after : List Event) : HasSwitch boot (before ++ after) := by
  obtain ⟨es₁, e, es₂, w, w', rfl, hrun, hstep, hswitch⟩ := h
  exact ⟨es₁, e, es₂ ++ after, w, w', by simp, hrun, hstep, hswitch⟩

theorem not_stamped (hinv : Inv w.sys w.log) : ¬Stamped w := by
  intro h
  have hlt := hinv.stamp_lt
  rw [Stamped, hinv.switchedIn] at h
  omega

/-- **No history with a switch has its stamps right**: the running task never
carries the time at which it was switched in. The other half of the law fails
exactly at those switches that resume a task which was switched out before. -/
theorem stampsCorrect_iff (h₀ : 0 < boot) (h₁ : boot < 2 ^ 64) (hrun : run boot es = some w) :
    (StampsCorrect boot es ↔ ¬HasSwitch boot es) ∧
    (AtSwitches boot es StampsNoOther ↔ AtSwitches boot es ResumesNew) := by
  constructor
  · constructor
    · intro hcorrect hswitch
      have hstamped := hcorrect.running es [] w (List.append_nil es).symm hswitch hrun
      exact not_stamped (inv_run h₀ h₁ hrun) hstamped
    · intro hnone
      constructor
      · intro before after w hes hswitch _
        exact absurd (hes ▸ hswitch.append after) hnone
      · intro before e after w w' hes hw hstep hswitch
        exact absurd ⟨before, e, after, w, w', hes, hw, hstep, hswitch⟩ hnone
  · have hiff : ∀ before e after w w', es = before ++ e :: after → run boot before = some w →
        w.step e = some w' → IsSwitch w.sys e →
        (StampsNoOther w e w' ↔ ResumesNew w e w') :=
      fun _ _ _ _ _ _ hw hstep hswitch =>
        stampsNoOther_iff (inv_run h₀ h₁ hw) hstep hswitch
    constructor
    · intro h before e after w w' hes hw hstep hswitch
      exact (hiff before e after w w' hes hw hstep hswitch).mp
        (h before e after w w' hes hw hstep hswitch)
    · intro h before e after w w' hes hw hstep hswitch
      exact (hiff before e after w w' hes hw hstep hswitch).mpr
        (h before e after w w' hes hw hstep hswitch)

/-- The CPU goes to a child and back: the switch back stamps the child. -/
def thereAndBack : List Event :=
  [.fork 1, .wakeUp 1, .schedule true false 1 10 11, .schedule true false 0 20 21]

/-- Up to the fork no switch; then the child is resumed for the first time, and no other
task is stamped; then the parent is resumed again, and the child is. -/
theorem stampsCorrect_iff_thereAndBack :
    StampsCorrect 1 (thereAndBack.take 2) ∧
    AtSwitches 1 (thereAndBack.take 3) StampsNoOther ∧
    ¬AtSwitches 1 thereAndBack StampsNoOther := by
  obtain ⟨w₂, w₃, w₄, h₂, h₃, h₄, hthere, hback, hnew, hcurr, hold⟩ : ∃ w₂ w₃ w₄,
      run 1 (thereAndBack.take 2) = some w₂ ∧ run 1 (thereAndBack.take 3) = some w₃ ∧
      run 1 thereAndBack = some w₄ ∧
      w₂.step (.schedule true false 1 10 11) = some w₃ ∧
      w₃.step (.schedule true false 0 20 21) = some w₄ ∧
      (w₂.sys.task w₃.sys.curr).frame = none ∧ w₃.sys.curr = 1 ∧
      (w₃.sys.task w₄.sys.curr).frame = some 1 :=
    ⟨_, _, _, rfl, rfl, rfl, rfl, rfl, rfl, rfl, rfl⟩
  refine ⟨(stampsCorrect_iff (by decide) (by decide) h₂).1.mpr ?_,
    (stampsCorrect_iff (by decide) (by decide) h₃).2.mpr ?_, fun hsame => ?_⟩
  · rintro ⟨before, e, after, w, w', hes, -, -, hswitch⟩
    have hmem : e ∈ thereAndBack.take 2 := by
      rw [hes]
      exact List.mem_append_right _ List.mem_cons_self
    simp only [thereAndBack, List.take_succ_cons, List.take_zero, List.mem_cons,
      List.not_mem_nil, or_false] at hmem
    rcases hmem with rfl | rfl
    · exact hswitch
    · exact hswitch
  · intro before e after w w' hes hw hstep hswitch
    obtain _ | ⟨_, _ | ⟨_, _ | ⟨_, before⟩⟩⟩ := before
    · obtain rfl : Event.fork 1 = e := (List.cons.inj hes).1
      exact absurd hswitch id
    · obtain rfl : Event.wakeUp 1 = e := (List.cons.inj (List.cons.inj hes).2).1
      exact absurd hswitch id
    · simp only [thereAndBack, List.take_succ_cons, List.take_zero, List.cons_append,
        List.nil_append, List.cons.injEq] at hes
      obtain ⟨rfl, rfl, rfl, -⟩ := hes
      obtain rfl : w₂ = w := Option.some.inj (h₂.symm.trans hw)
      obtain rfl : w₃ = w' := Option.some.inj (hthere.symm.trans hstep)
      exact hnew
    · simp [thereAndBack] at hes
  · have hresumes := (stampsCorrect_iff (by decide) (by decide) h₄).2.mp hsame
      (thereAndBack.take 3) _ [] w₃ w₄ rfl h₃ hback (by
        show w₃.sys.curr ≠ 0
        rw [hcurr]
        decide)
    rw [ResumesNew, hold] at hresumes
    exact absurd hresumes (by simp)

theorem not_stampsCorrect_thereAndBack : ¬StampsCorrect 1 thereAndBack := by
  intro h
  obtain ⟨w, hw, w', hw', hstep, hswitch, hnot⟩ : ∃ w, run 1 (thereAndBack.take 3) = some w ∧
      ∃ w', run 1 thereAndBack = some w' ∧ w.step (.schedule true false 0 20 21) = some w' ∧
        IsSwitch w.sys (.schedule true false 0 20 21) ∧ ¬Stamped w' := by
    refine ⟨_, rfl, _, rfl, rfl, ?_, ?_⟩
    · show (1 : Pid) ≠ 0
      decide
    · decide
  exact hnot (h.running thereAndBack [] w' (List.append_nil _).symm
    ⟨thereAndBack.take 3, _, [], w, w', rfl, hw, hstep, hswitch⟩ hw')

end OS2023.Sched
