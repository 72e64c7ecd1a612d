import OS2023.Sched.Exit

/-!
# The log of the exits

What `do_exit` prints over a whole history of exits. The two variables belong to
the kernel and are shared by all processes, so a line reports what the counter
says and not what its process did: the exits of tasks named `testp` are cut into
batches of 22, whoever they belong to, and the last exit of a batch is the one
that gets the total.
-/

namespace OS2023.Sched

/-- The lines that the exits `es` print when the variables hold `g`. -/
def logFrom (g : Totals) : List Exiting → List Printk
  | [] => []
  | tsk :: es => (doExit g tsk).2 ++ logFrom (doExit g tsk).1 es

/-- The log of a history, from boot on. -/
def logAfter (es : List Exiting) : List Printk :=
  logFrom ⟨0, 0⟩ es

/-- The batch of exit number `i`, as far as it lies in front of it. -/
def batchBefore (l : List Exiting) (i : ℕ) : List Exiting :=
  (l.take i).drop (i - i % 22)

/-- The line of `tsk` when it is exit number `i` of those in `l`. -/
def lineAt (l : List Exiting) (i : ℕ) (tsk : Exiting) : Printk :=
  let before := burstSum (batchBefore l i) % 2 ^ 64
  let total := (burstSum (batchBefore l i) + tsk.cpuBurst) % 2 ^ 64
  if i % 22 = 21 then .total tsk.pid (before / nsecPerSec) (before % nsecPerSec)
  else .burst tsk.policy tsk.comm tsk.pid (tsk.cpuBurst / nsecPerSec)
    (tsk.cpuBurst % nsecPerSec) (total / nsecPerSec) (total % nsecPerSec)

/-! ## Histories taken apart -/

theorem logFrom_append (g : Totals) (es es' : List Exiting) :
    logFrom g (es ++ es') =
      logFrom g es ++ logFrom (es.foldl (fun g tsk => (doExit g tsk).1) g) es' := by
  induction es generalizing g with
  | nil => rfl
  | cons tsk es ih =>
      rw [List.cons_append, logFrom, logFrom, ih, List.foldl_cons, List.append_assoc]

theorem logAfter_snoc (es : List Exiting) (tsk : Exiting) :
    logAfter (es ++ [tsk]) = logAfter es ++ (doExit (totalsAfter es) tsk).2 := by
  rw [logAfter, logFrom_append, logFrom, logFrom, List.append_nil]
  rfl

theorem totalsAfter_snoc (es : List Exiting) (tsk : Exiting) :
    totalsAfter (es ++ [tsk]) = (doExit (totalsAfter es) tsk).1 := by
  rw [totalsAfter, List.foldl_append]
  rfl

theorem doExit_of_other {tsk : Exiting} (h : isTestp tsk = false) (g : Totals) :
    doExit g tsk = (g, []) := by
  rw [doExit, if_neg (Bool.eq_false_iff.mp h)]

/-- Other programs leave no trace. -/
theorem logFrom_filter (g : Totals) (es : List Exiting) :
    logFrom g (es.filter isTestp) = logFrom g es := by
  induction es generalizing g with
  | nil => rfl
  | cons tsk es ih =>
      cases htsk : isTestp tsk with
      | true => rw [List.filter_cons_of_pos htsk, logFrom, logFrom, ih]
      | false =>
          rw [List.filter_cons_of_neg (by simp [htsk]), logFrom, doExit_of_other htsk, ih]
          rfl

/-! ## Every line -/

theorem batchBefore_append {l : List Exiting} {i : ℕ} (h : i ≤ l.length)
    (l' : List Exiting) : batchBefore (l ++ l') i = batchBefore l i := by
  rw [batchBefore, List.take_append_of_le_length h, ← batchBefore]

theorem batchBefore_length (l : List Exiting) : batchBefore l l.length = openBatch l := by
  rw [batchBefore, List.take_length]
  rfl

theorem lineAt_append {l : List Exiting} {i : ℕ} (h : i ≤ l.length) (l' : List Exiting) :
    lineAt (l ++ l') i = lineAt l i := by
  funext tsk
  rw [lineAt, batchBefore_append h]
  rfl

/-- The line of the next exit. -/
theorem doExit_line {es : List Exiting} {tsk : Exiting} (h : isTestp tsk = true) :
    (doExit (totalsAfter es) tsk).2 =
      [lineAt (es.filter isTestp) (es.filter isTestp).length tsk] := by
  rw [totalsAfter_eq, doExit, if_pos h, lineAt, batchBefore_length]
  have hlt := Nat.mod_lt (es.filter isTestp).length (show 22 > 0 by decide)
  by_cases hlast : (es.filter isTestp).length % 22 = 21
  · simp [hlast]
  · have hle : ¬(es.filter isTestp).length % 22 + 1 > 21 := by omega
    simp [hlast, hle]

/-- **The whole log.** One line for each exit of the test program, in their order;
line number `i` reports the batch of 22 to which exit number `i` belongs. -/
theorem log_exact (es : List Exiting) :
    logAfter es = (es.filter isTestp).mapIdx (lineAt (es.filter isTestp)) := by
  induction es using List.reverseRecOn with
  | nil => rfl
  | append_singleton es tsk ih =>
      rw [logAfter_snoc, List.filter_append]
      cases htsk : isTestp tsk with
      | false =>
          rw [doExit_of_other htsk, List.filter_cons_of_neg (by simp [htsk]), List.filter_nil,
            List.append_nil, List.append_nil]
          exact ih
      | true =>
          rw [doExit_line htsk, ih, List.filter_cons_of_pos htsk, List.filter_nil,
            List.mapIdx_concat, lineAt_append (le_refl _)]
          apply congrArg (· ++ _)
          -- the lines so far do not look at the new exit
          apply List.ext_getElem (by simp)
          intro i h₁ h₂
          rw [List.getElem_mapIdx, List.getElem_mapIdx, lineAt_append]
          rw [List.length_mapIdx] at h₁
          exact h₁.le

/-! ## Within a batch -/

/-- The lines of children that exit one after the other, when the bursts in front
of them add up to `sum`. -/
def childLines (sum : ℕ) : List Exiting → List Printk
  | [] => []
  | tsk :: es =>
      let total := (sum + tsk.cpuBurst) % 2 ^ 64
      .burst tsk.policy tsk.comm tsk.pid (tsk.cpuBurst / nsecPerSec)
        (tsk.cpuBurst % nsecPerSec) (total / nsecPerSec) (total % nsecPerSec) ::
        childLines total es

/-- What a run of the test program is to leave in the log. -/
def TestRun.lines (r : TestRun) : List Printk :=
  childLines 0 r.children ++ [r.totalLine]

theorem logFrom_children {sum count : ℕ} {es : List Exiting} (hsum : sum < 2 ^ 64)
    (hnamed : ∀ tsk ∈ es, isTestp tsk = true) (hcount : count + es.length ≤ 21) :
    logFrom ⟨sum, count⟩ es = childLines sum es ∧
    es.foldl (fun g tsk => (doExit g tsk).1) ⟨sum, count⟩ =
      ⟨(sum + burstSum es) % 2 ^ 64, count + es.length⟩ := by
  induction es generalizing sum count with
  | nil =>
      refine ⟨rfl, ?_⟩
      rw [List.foldl_nil, burstSum, List.map_nil, List.sum_nil, Nat.add_zero,
        Nat.mod_eq_of_lt hsum, List.length_nil, Nat.add_zero]
  | cons tsk es ih =>
      rw [List.length_cons] at hcount
      have hstep : doExit ⟨sum, count⟩ tsk =
          (⟨(sum + tsk.cpuBurst) % 2 ^ 64, count + 1⟩, [.burst tsk.policy tsk.comm tsk.pid
            (tsk.cpuBurst / nsecPerSec) (tsk.cpuBurst % nsecPerSec)
            ((sum + tsk.cpuBurst) % 2 ^ 64 / nsecPerSec)
            ((sum + tsk.cpuBurst) % 2 ^ 64 % nsecPerSec)]) := by
        rw [doExit, if_pos (hnamed tsk List.mem_cons_self)]
        exact if_neg (show ¬count + 1 > 21 by omega)
      obtain ⟨hlog, htotals⟩ := @ih ((sum + tsk.cpuBurst) % 2 ^ 64) (count + 1)
        (Nat.mod_lt _ (by decide)) (fun t ht => hnamed t (List.mem_cons_of_mem _ ht))
        (by omega)
      constructor
      · rw [logFrom, hstep, hlog, childLines]
        rfl
      · rw [List.foldl_cons, hstep, htotals, List.length_cons, burstSum, burstSum,
          List.map_cons, List.sum_cons, Nat.mod_add_mod, Nat.add_assoc, Nat.add_assoc,
          Nat.add_comm 1]

/-- A complete run that starts a batch logs its own lines, and ends the batch. -/
theorem logFrom_run {r : TestRun} (h : r.Complete) :
    logFrom ⟨0, 0⟩ r.exits = r.lines ∧
    r.exits.foldl (fun g tsk => (doExit g tsk).1) ⟨0, 0⟩ = ⟨0, 0⟩ := by
  have hnamed : ∀ tsk ∈ r.children, isTestp tsk = true :=
    fun tsk htsk => r.named tsk (List.mem_append_left _ htsk)
  obtain ⟨hlog, htotals⟩ := logFrom_children (Nat.two_pow_pos 64) hnamed
    (show 0 + r.children.length ≤ 21 from (Nat.zero_add _).trans_le r.forks)
  have hparent : doExit ⟨(0 + burstSum r.children) % 2 ^ 64, 0 + r.children.length⟩ r.parent =
      (⟨0, 0⟩, [r.totalLine]) := by
    rw [doExit, if_pos (r.named r.parent (by simp)), Nat.zero_add, Nat.zero_add,
      show r.children.length = 21 from h]
    rfl
  constructor
  · rw [TestRun.exits, logFrom_append, hlog, htotals, logFrom, hparent]
    rfl
  · rw [TestRun.exits, List.foldl_append, htotals, List.foldl_cons, hparent]
    rfl

/-- **Complete runs, one after the other, and the children of the run that is under
way.** -/
theorem logFrom_runs {runs : List TestRun} {es : List Exiting}
    (hruns : ∀ r ∈ runs, r.Complete) (hnamed : ∀ tsk ∈ es, isTestp tsk = true)
    (hcount : es.length ≤ 21) :
    logFrom ⟨0, 0⟩ (runs.flatMap TestRun.exits ++ es) =
      runs.flatMap TestRun.lines ++ childLines 0 es := by
  induction runs with
  | nil =>
      exact (logFrom_children (Nat.two_pow_pos 64) hnamed
        ((Nat.zero_add _).trans_le hcount)).1
  | cons r runs ih =>
      obtain ⟨hlog, htotals⟩ := logFrom_run (hruns r List.mem_cons_self)
      rw [List.flatMap_cons, List.flatMap_cons, List.append_assoc, logFrom_append, hlog,
        htotals, ih fun r hr => hruns r (List.mem_cons_of_mem _ hr), List.append_assoc]

end OS2023.Sched
