import Mathlib.Data.List.Induction

/-!
# Runs of a guarded machine

A machine answers every event with a successor state, or with `none` where the
event is not enabled. A run is a list of events, each enabled where it stands.
`run_invariant` is the rule by which properties of single steps become
properties of all runs, `exists_completion` the one that leads to a final state.
-/

namespace OS2023.Lib

universe u v

variable {σ : Type u} {ε : Type v}

/-- The state after the events `es`. -/
def runFrom (step : σ → ε → Option σ) (init : σ) (es : List ε) : Option σ :=
  es.foldlM step init

variable {step : σ → ε → Option σ} {init : σ}

theorem runFrom_snoc {es : List ε} {e : ε} {s' : σ} :
    runFrom step init (es ++ [e]) = some s' ↔
      ∃ s, runFrom step init es = some s ∧ step s e = some s' := by
  unfold runFrom
  rw [List.foldlM_append]
  cases List.foldlM step init es with
  | none => simp
  | some s => simp

theorem runFrom_append {es es' : List ε} {s s' : σ} (h : runFrom step init es = some s)
    (h' : runFrom step s es' = some s') : runFrom step init (es ++ es') = some s' := by
  unfold runFrom at h
  rw [runFrom, List.foldlM_append, h]
  exact h'

theorem runFrom_cons_iff {es : List ε} {e : ε} {s' : σ} :
    runFrom step init (e :: es) = some s' ↔
      ∃ s, step init e = some s ∧ runFrom step s es = some s' := by
  rw [runFrom, List.foldlM_cons]
  exact Option.bind_eq_some_iff

theorem runFrom_cons {es : List ε} {e : ε} {s s' : σ} (h : step init e = some s)
    (h' : runFrom step s es = some s') : runFrom step init (e :: es) = some s' := by
  rw [runFrom, List.foldlM_cons, h]
  exact h'

/-- **The invariant rule**, for a property of the state and the events so far. -/
theorem history_invariant {I : List ε → σ → Prop} (start : I [] init)
    (keep : ∀ es s e s', step s e = some s' → I es s → I (es ++ [e]) s') :
    ∀ {es : List ε} {s : σ}, runFrom step init es = some s → I es s := by
  intro es
  induction es using List.reverseRecOn with
  | nil =>
      intro s hrun
      exact Option.some.inj hrun ▸ start
  | append_singleton es e ih =>
      intro s' hrun
      obtain ⟨s, hs, hstep⟩ := runFrom_snoc.mp hrun
      exact keep es s e s' hstep (ih hs)

/-- **The invariant rule**, for a property of the state. -/
theorem run_invariant {I : σ → Prop} (start : I init)
    (keep : ∀ s e s', step s e = some s' → I s → I s') :
    ∀ {es : List ε} {s : σ}, runFrom step init es = some s → I s :=
  history_invariant (I := fun _ s => I s) start fun _ s e s' => keep s e s'

/-- `Q` holds of every event of the run, in the state in which it happens. -/
def Throughout (step : σ → ε → Option σ) (init : σ) (Q : σ → ε → Prop) (es : List ε) : Prop :=
  ∀ before e after s, es = before ++ e :: after → runFrom step init before = some s → Q s e

theorem Throughout.of_snoc {Q : σ → ε → Prop} {es : List ε} {e : ε}
    (h : Throughout step init Q (es ++ [e])) : Throughout step init Q es := by
  intro before e' after s hes hrun
  exact h before e' (after ++ [e]) s (by rw [hes]; simp) hrun

theorem throughout_of_forall {P : ε → Prop} {es : List ε} (h : ∀ e ∈ es, P e) :
    Throughout step init (fun _ e => P e) es := by
  intro before e after s hes _
  exact h e (by rw [hes]; simp)

/-- **The invariant rule, with a promise about the events.** -/
theorem history_invariant_of {I : List ε → σ → Prop} {Q : σ → ε → Prop} (start : I [] init)
    (keep : ∀ es s e s', Q s e → step s e = some s' → I es s → I (es ++ [e]) s') :
    ∀ {es : List ε} {s : σ}, Throughout step init Q es → runFrom step init es = some s →
      I es s := by
  intro es
  induction es using List.reverseRecOn with
  | nil =>
      intro s _ hrun
      exact Option.some.inj hrun ▸ start
  | append_singleton es e ih =>
      intro s' hQ hrun
      obtain ⟨s, hs, hstep⟩ := runFrom_snoc.mp hrun
      exact keep es s e s' (hQ es e [] s rfl hs) hstep (ih hQ.of_snoc hs)

/-! ## Termination -/

/-- A measure that every step lowers bounds the length of the runs. -/
theorem length_add_measure_le {μ : σ → ℕ}
    (lower : ∀ s e s', step s e = some s' → μ s' < μ s) {es : List ε} {s : σ}
    (h : runFrom step init es = some s) : es.length + μ s ≤ μ init := by
  refine history_invariant (I := fun es s => es.length + μ s ≤ μ init) ?_ ?_ h
  · exact Nat.le_of_eq (Nat.zero_add (μ init))
  · intro es s e s' hstep hle
    have hlt := lower s e s' hstep
    rw [List.length_append, List.length_singleton]
    omega

/-- **The completion rule.** Where a state is not final a step is enabled, and
every step lowers a measure: then a final state is within reach, by events that
satisfy `p`. Here `I` is an invariant and `F` says which states are final. -/
theorem exists_completion {I F : σ → Prop} {p : ε → Prop} {μ : σ → ℕ}
    (keep : ∀ s e s', p e → step s e = some s' → I s → I s')
    (lower : ∀ s e s', step s e = some s' → μ s' < μ s)
    (progress : ∀ s, I s → ¬F s → ∃ e s', p e ∧ step s e = some s') (s : σ) (hs : I s) :
    ∃ es s', (∀ e ∈ es, p e) ∧ runFrom step s es = some s' ∧ I s' ∧ F s' := by
  -- on the measure of the state
  induction hn : μ s using Nat.strongRecOn generalizing s with
  | _ n ih =>
      by_cases hfinal : F s
      · exact ⟨[], s, by simp, rfl, hs, hfinal⟩
      · obtain ⟨e, s₁, hp, hstep⟩ := progress s hs hfinal
        have hlt : μ s₁ < n := hn ▸ lower s e s₁ hstep
        obtain ⟨es, s', hes, hrun, hend⟩ := ih (μ s₁) hlt s₁ (keep s e s₁ hp hstep hs) rfl
        refine ⟨e :: es, s', ?_, runFrom_cons hstep hrun, hend⟩
        rw [List.forall_mem_cons]
        exact ⟨hp, hes⟩

end OS2023.Lib
