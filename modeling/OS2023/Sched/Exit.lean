import Mathlib.Algebra.BigOperators.Group.List.Basic
import Mathlib.Algebra.Ring.Nat
import Mathlib.Data.List.Induction

/-!
# Totals at exit

The head of `do_exit` in `3/20193018_PLUS-1/exit.c`, and what it logs for runs of
the test program `testp` (`assignment3p.c`). A run forks up to 21 children, one
after the other, and waits for each; it stops early when a fork fails or when it
is killed. `do_exit` knows none of this: it counts the exits of tasks named
`testp`, adds up their bursts, and takes every 22nd of them for the parent of a
run. A run that stops early leaves its exits in the count, so the next complete
run is right only if what came before it adds up to whole batches.
-/

namespace OS2023.Sched

/-! ## The code -/

/-- The fields of `task_struct` that `do_exit` reads here. -/
structure Exiting where
  comm : List Char
  pid : ℕ
  policy : ℕ
  cpuBurst : ℕ
deriving DecidableEq

/-- The two `printk` lines. -/
inductive Printk where
  | total (pid totalSeconds totalNanoseconds : ℕ)
  | burst (policy : ℕ) (comm : List Char) (pid seconds nanoseconds totalSeconds
      totalNanoseconds : ℕ)
deriving DecidableEq

/-- `cpu_burst_total_tsk` and `CHILD_PROCESS_COUNT`. -/
structure Totals where
  cpuBurstTotalTsk : ℕ
  childProcessCount : ℕ
deriving DecidableEq

def testName : List Char :=
  "testp".toList

/-- `strncmp(s, t, n) == 0` for the strings in front of the terminators. -/
def strncmpEq (s t : List Char) (n : ℕ) : Bool :=
  (s ++ ['\x00']).take n == (t ++ ['\x00']).take n

/-- The test on the name: `sizeof(test_name)` counts the terminator. -/
def isTestp (tsk : Exiting) : Bool :=
  strncmpEq tsk.comm testName 6

def nsecPerSec : ℕ := 1000000000

/-- The head of `do_exit`, with the lines that it logs. -/
def doExit (g : Totals) (tsk : Exiting) : Totals × List Printk :=
  if isTestp tsk then
    let count := g.childProcessCount + 1
    if count > 21 then
      (⟨0, 0⟩, [.total tsk.pid (g.cpuBurstTotalTsk / nsecPerSec)
        (g.cpuBurstTotalTsk % nsecPerSec)])
    else
      let total := (g.cpuBurstTotalTsk + tsk.cpuBurst) % 2 ^ 64
      (⟨total, count⟩, [.burst tsk.policy tsk.comm tsk.pid (tsk.cpuBurst / nsecPerSec)
        (tsk.cpuBurst % nsecPerSec) (total / nsecPerSec) (total % nsecPerSec)])
  else (g, [])

/-- The totals after the exits `es`. -/
def totalsAfter (es : List Exiting) : Totals :=
  es.foldl (fun g tsk => (doExit g tsk).1) ⟨0, 0⟩

/-! ## Runs of the test program -/

/-- One run: its children in the order in which they exit, then the parent. -/
structure TestRun where
  children : List Exiting
  parent : Exiting
  forks : children.length ≤ 21
  named : ∀ tsk ∈ children ++ [parent], isTestp tsk = true

def TestRun.exits (r : TestRun) : List Exiting :=
  r.children ++ [r.parent]

def TestRun.Complete (r : TestRun) : Prop :=
  r.children.length = 21

def burstSum (es : List Exiting) : ℕ :=
  (es.map fun tsk => tsk.cpuBurst).sum

/-- The line that a complete run is to leave in the log. -/
def TestRun.totalLine (r : TestRun) : Printk :=
  let total := burstSum r.children % 2 ^ 64
  .total r.parent.pid (total / nsecPerSec) (total % nsecPerSec)

def Printk.IsTotal : Printk → Prop
  | .total _ _ _ => True
  | .burst _ _ _ _ _ _ _ => False

/-- The history `es` consists of the exits of `runs`, one run after the other,
and of exits of other processes anywhere. -/
def Interleaves (runs : List TestRun) (es : List Exiting) : Prop :=
  es.filter isTestp = runs.flatMap TestRun.exits

/-- Every complete run logs its total when its parent exits, and none before. -/
structure BatchTotals (runs : List TestRun) (es : List Exiting) : Prop where
  parent : ∀ before r after pre post, runs = before ++ r :: after → r.Complete →
    es = pre ++ r.parent :: post →
    pre.filter isTestp = before.flatMap TestRun.exits ++ r.children →
    (doExit (totalsAfter pre) r.parent).2 = [r.totalLine]
  child : ∀ before r after pre tsk post done rest, runs = before ++ r :: after →
    r.Complete → r.children = done ++ tsk :: rest → es = pre ++ tsk :: post →
    pre.filter isTestp = before.flatMap TestRun.exits ++ done →
    ∀ line ∈ (doExit (totalsAfter pre) tsk).2, ¬line.IsTotal

/-- Complete runs start at a multiple of 22 exits. -/
def Aligned (runs : List TestRun) : Prop :=
  ∀ before r after, runs = before ++ r :: after → r.Complete →
    22 ∣ (before.flatMap TestRun.exits).length

/-! ## The counter -/

/-- The exits since the last full batch of 22. -/
def openBatch (l : List Exiting) : List Exiting :=
  l.drop (l.length - l.length % 22)

theorem openBatch_snoc_of_lt {l : List Exiting} (tsk : Exiting) (h : l.length % 22 < 21) :
    openBatch (l ++ [tsk]) = openBatch l ++ [tsk] := by
  unfold openBatch
  have hmod : (l.length + 1) % 22 = l.length % 22 + 1 := by omega
  rw [List.length_append, List.length_singleton, hmod,
    show l.length + 1 - (l.length % 22 + 1) = l.length - l.length % 22 by omega,
    List.drop_append_of_le_length (Nat.sub_le _ _)]

theorem openBatch_snoc_of_eq {l : List Exiting} (tsk : Exiting) (h : l.length % 22 = 21) :
    openBatch (l ++ [tsk]) = [] := by
  unfold openBatch
  have hmod : (l.length + 1) % 22 = 0 := by omega
  rw [List.length_append, List.length_singleton, hmod]
  exact List.drop_of_length_le (by simp)

/-- A batch that starts at a multiple of 22 is open until it is full. -/
theorem openBatch_append {l t : List Exiting} (hl : 22 ∣ l.length) (ht : t.length < 22) :
    openBatch (l ++ t) = t := by
  have hmod : (l ++ t).length % 22 = t.length := by
    rw [List.length_append]
    omega
  rw [openBatch, hmod, List.length_append, Nat.add_sub_cancel, List.drop_left]

theorem burstSum_snoc (l : List Exiting) (tsk : Exiting) :
    burstSum (l ++ [tsk]) = burstSum l + tsk.cpuBurst := by
  simp [burstSum]

/-- **What the two variables hold**: the number of exits in the open batch, and the
sum of their bursts. -/
theorem totalsAfter_eq (es : List Exiting) :
    totalsAfter es = ⟨burstSum (openBatch (es.filter isTestp)) % 2 ^ 64,
      (es.filter isTestp).length % 22⟩ := by
  induction es using List.reverseRecOn with
  | nil => rfl
  | append_singleton es tsk ih =>
      have hstep : totalsAfter (es ++ [tsk]) = (doExit (totalsAfter es) tsk).1 := by
        simp [totalsAfter]
      rw [hstep, ih, List.filter_append]
      cases htsk : isTestp tsk with
      | false => simp [doExit, htsk]
      | true =>
          have hfilter : [tsk].filter isTestp = [tsk] := by simp [htsk]
          rw [hfilter, doExit, if_pos htsk]
          have hlt := Nat.mod_lt (es.filter isTestp).length (show 22 > 0 by decide)
          by_cases hlast : (es.filter isTestp).length % 22 = 21
          · rw [if_pos (show (es.filter isTestp).length % 22 + 1 > 21 by omega),
              openBatch_snoc_of_eq tsk hlast, List.length_append,
              List.length_singleton]
            simp only [burstSum, List.map_nil, List.sum_nil, Nat.zero_mod, Totals.mk.injEq,
              true_and]
            omega
          · rw [if_neg (show ¬(es.filter isTestp).length % 22 + 1 > 21 by omega),
              openBatch_snoc_of_lt tsk (by omega), burstSum_snoc,
              List.length_append, List.length_singleton]
            simp only [Nat.mod_add_mod, Totals.mk.injEq, true_and]
            omega

/-! ## Complete runs -/

theorem doExit_of_last {g : Totals} {tsk : Exiting} (htsk : isTestp tsk = true)
    (hcount : g.childProcessCount = 21) : (doExit g tsk).2 =
      [.total tsk.pid (g.cpuBurstTotalTsk / nsecPerSec) (g.cpuBurstTotalTsk % nsecPerSec)] := by
  rw [doExit, if_pos htsk, if_pos (by omega)]

theorem doExit_of_not_last {g : Totals} (hcount : g.childProcessCount < 21) (tsk : Exiting) :
    ∀ line ∈ (doExit g tsk).2, ¬line.IsTotal := by
  intro line hline
  unfold doExit at hline
  split at hline
  · rw [if_neg (by omega), List.mem_singleton] at hline
    rw [hline]
    exact id
  · exact absurd hline List.not_mem_nil

/-- The exits in front of a parent: those of the earlier runs and of its children. -/
theorem exists_parent_exit {before after runs : List TestRun} {r : TestRun}
    {es : List Exiting} (h : Interleaves runs es) (hruns : runs = before ++ r :: after) :
    ∃ pre post, es = pre ++ r.parent :: post ∧
      pre.filter isTestp = before.flatMap TestRun.exits ++ r.children := by
  rw [Interleaves, hruns, List.flatMap_append, List.flatMap_cons, TestRun.exits,
    List.append_assoc, ← List.append_assoc, List.filter_eq_append_iff] at h
  obtain ⟨es₁, es₂, rfl, hpre, htail⟩ := h
  obtain ⟨gap, post, rfl, hgap, -, -⟩ := List.filter_eq_cons_iff.mp htail
  refine ⟨es₁ ++ gap, post, by simp, ?_⟩
  rw [List.filter_append, hpre, List.filter_eq_nil_iff.mpr hgap, List.append_nil]

/-- **A complete run reports its own total exactly when it starts a batch.** -/
theorem batchTotals_iff {runs : List TestRun} {es : List Exiting} (h : Interleaves runs es) :
    BatchTotals runs es ↔ Aligned runs := by
  constructor
  · intro hcorrect before r after hruns hcomplete
    obtain ⟨pre, post, hes, hpre⟩ := exists_parent_exit h hruns
    have hline := hcorrect.parent before r after pre post hruns hcomplete hes hpre
    by_contra hnot
    -- the count in front of the parent is below 21, so no total is logged
    have hcount : (totalsAfter pre).childProcessCount < 21 := by
      rw [totalsAfter_eq, hpre, List.length_append, hcomplete]
      show _ % 22 < 21
      omega
    have htotal := doExit_of_not_last hcount r.parent r.totalLine
      (by rw [hline]; exact List.mem_singleton_self _)
    exact htotal trivial
  · intro haligned
    constructor
    · intro before r after pre post hruns hcomplete hes hpre
      have hdvd := haligned before r after hruns hcomplete
      have hlast : (totalsAfter pre).childProcessCount = 21 := by
        rw [totalsAfter_eq, hpre, List.length_append, hcomplete]
        show _ % 22 = 21
        omega
      have hnamed : isTestp r.parent = true := r.named _ (by simp)
      have hbatch : openBatch (pre.filter isTestp) = r.children := by
        rw [hpre]
        exact openBatch_append hdvd (by rw [hcomplete]; decide)
      rw [doExit_of_last hnamed hlast, totalsAfter_eq, hbatch]
      rfl
    · intro before r after pre tsk post done rest hruns hcomplete hchildren hes hpre
      have hdvd := haligned before r after hruns hcomplete
      have hlen : done.length < 21 := by
        have := congrArg List.length hchildren
        rw [hcomplete, List.length_append, List.length_cons] at this
        omega
      apply doExit_of_not_last
      rw [totalsAfter_eq, hpre, List.length_append]
      show _ % 22 < 21
      omega

/-- A task of the test program. -/
def testTask (pid cpuBurst : ℕ) : Exiting :=
  ⟨testName, pid, 0, cpuBurst⟩

/-- A run whose 21 children have bursts of one second each. -/
def fullRun : TestRun where
  children := (List.range 21).map fun i => testTask (101 + i) nsecPerSec
  parent := testTask 100 5
  forks := by decide
  named := by decide

/-- A run whose first `fork` fails. -/
def failedRun : TestRun where
  children := []
  parent := testTask 99 7
  forks := by decide
  named := by decide

/-- A run that is killed after ten children. -/
def killedRun : TestRun where
  children := (List.range 10).map fun i => testTask (201 + i) nsecPerSec
  parent := testTask 200 6
  forks := by decide
  named := by decide

/-- Two runs that are killed fill a batch together, so that the complete run behind them
starts one. A shell exits in its midst. -/
theorem batchTotals_iff_killed : BatchTotals [killedRun, killedRun, fullRun]
    (killedRun.exits ++ killedRun.exits ++ fullRun.children ++
      ⟨"bash".toList, 42, 0, 3⟩ :: [fullRun.parent]) := by
  have hcut : ¬killedRun.Complete := by
    show ¬killedRun.children.length = 21
    decide
  have hexits : Interleaves [killedRun, killedRun, fullRun]
      (killedRun.exits ++ killedRun.exits ++ fullRun.children ++
        ⟨"bash".toList, 42, 0, 3⟩ :: [fullRun.parent]) := by
    unfold Interleaves
    decide
  apply (batchTotals_iff hexits).mpr
  intro before r after heq hcomplete
  obtain _ | ⟨b, _ | ⟨b', _ | ⟨b'', before⟩⟩⟩ := before
  · obtain rfl : killedRun = r := (List.cons.inj heq).1
    exact absurd hcomplete hcut
  · obtain rfl : killedRun = r := (List.cons.inj (List.cons.inj heq).2).1
    exact absurd hcomplete hcut
  · simp only [List.cons_append, List.nil_append, List.cons.injEq] at heq
    obtain ⟨rfl, rfl, rfl, -⟩ := heq
    decide
  · simp at heq

/-- After a run whose first `fork` failed, the parent of a complete run logs no
total. -/
theorem not_batchTotals_failed :
    ¬BatchTotals [failedRun, fullRun] (failedRun.exits ++ fullRun.exits) := by
  intro h
  have hline := h.parent [failedRun] fullRun [] (failedRun.exits ++ fullRun.children) []
    rfl rfl (by simp [TestRun.exits]) (by decide)
  exact absurd hline (by decide)

end OS2023.Sched
