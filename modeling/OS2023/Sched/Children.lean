import OS2023.Sched.Reported

/-!
# The children of the test program

Each child of `3/assignment3.c` gives itself the nice value and the policy that the user
has chosen. The program is meant to compare these policies. Under the changed
`sched_fork` a child starts at `prio` 90, whatever is chosen, and this decides what is
compared: the children that ask for `SCHED_FIFO` stay at 90, those that ask for
`SCHED_RR` with the same priority get to 0, and under CFS a child that has not asked yet
goes before all that have.
-/

namespace OS2023.Sched.Attributes.Children

open OS2023.Lib

/-! ## The program -/

/-- The choices of the menu. -/
inductive Choice where
  | cfsDefault
  | cfsNice
  | rtFifo
  | rtRr
deriving DecidableEq

def Choice.policy : Choice → Policy
  | .cfsDefault | .cfsNice => .normal
  | .rtFifo => .fifo
  | .rtRr => .rr

/-- Where a choice gets a child with the given nice value. -/
def Choice.prio (choice : Choice) (nice : ℤ) : ℤ :=
  match choice with
  | .cfsDefault | .cfsNice => nice + 120
  | .rtFifo => 90
  | .rtRr => 0

/-- The nice value of the child `i` under `CFS_NICE`. -/
def niceOf (i : Fin 21) : ℤ :=
  if i.val < 7 then -20 else if i.val < 14 then 0 else 19

inductive Stage where
  | unborn
  | forked
  | niced
  | asking
  | checked
  | working
deriving DecidableEq

/-- `forks` is the parent's `i`. -/
structure State where
  world : World
  forks : ℕ
  stage : Fin 21 → Stage

/-- The steps of the program, and those of the rest of the system. -/
inductive Event where
  | fork (success : Bool)
  | setpriority (i : Fin 21)
  | setscheduler (i : Fin 21)
  | check (i : Fin 21) (ctx : Context)
  | lock (i : Fin 21) (lock : LockContext)
  | other (e : Attributes.Event)

def start (w : World) : State :=
  ⟨w, 0, fun _ => .unborn⟩

def State.move (s : State) (i : Fin 21) (stage : Stage) (w : World) : State :=
  { s with world := w, stage := Function.update s.stage i stage }

@[simp] theorem State.move_world (s : State) (i : Fin 21) (stage : Stage) (w : World) :
    (s.move i stage w).world = w :=
  rfl

@[simp] theorem State.move_stage (s : State) (i : Fin 21) (stage : Stage) (w : World) :
    (s.move i stage w).stage = Function.update s.stage i stage :=
  rfl

/-- The tasks and the calls that an event names. -/
def names : Attributes.Event → List ℕ
  | .fork _ child => [child]
  | .setUserNice p _ | .nice p _ _ | .rtMutexSetprio p _ _ => [p]
  | .setscheduler k p _ _ _ _ | .setattr k p _ => [k, p]
  | .check k _ | .lock k _ => [k]

variable (h : Header) (getparamDl : Task → Flags → ℕ × Flags) (choice : Choice) (parent : ℕ)
  (pid : Fin 21 → ℕ)

/-- `param.sched_priority` -/
def schedPriority : ℤ :=
  if choice.policy = .fifo ∨ choice.policy = .rr then schedGetPriorityMax h choice.policy
  else 0

/-- One step. A child makes its calls under its own number; the rest of the system leaves
the children alone. -/
def step (s : State) : Event → Option State
  | .fork success =>
      if hi : s.forks < 21 then
        if success then
          (Attributes.step h getparamDl s.world (.fork parent (pid ⟨s.forks, hi⟩))).map fun w =>
            { s.move ⟨s.forks, hi⟩ .forked w with forks := s.forks + 1 }
        else some { s with forks := s.forks + 1 }
      else none
  | .setpriority i =>
      if choice = .cfsNice ∧ s.stage i = .forked then
        (Attributes.step h getparamDl s.world (.setUserNice (pid i) (niceOf i))).map
          (s.move i .niced)
      else none
  | .setscheduler i =>
      if s.stage i = if choice = .cfsNice then .niced else .forked then
        (Attributes.step h getparamDl s.world (.setscheduler (pid i) (pid i)
          (.policy choice.policy) false (schedPriority h choice).toNat true)).map
            (s.move i .asking)
      else none
  | .check i ctx =>
      if s.stage i = .asking then
        (Attributes.step h getparamDl s.world (.check (pid i) ctx)).map fun w =>
          s.move i (if w.call (pid i) = none then .working else .checked) w
      else none
  | .lock i lock =>
      if s.stage i = .checked then
        (Attributes.step h getparamDl s.world (.lock (pid i) lock)).map fun w =>
          s.move i (if w.call (pid i) = none then .working else .asking) w
      else none
  | .other e =>
      if ∀ i, pid i ∉ names e then
        (Attributes.step h getparamDl s.world e).map fun w => { s with world := w }
      else none

/-- The program is run by a user who may do all this. -/
def Event.Privileged : Event → Prop
  | .check _ ctx => ctx.capSysNice = true ∧ ctx.security = none
  | .lock _ l => l.isStop = false ∧ l.groupDenies = false
  | _ => True

/-! ## What a child asks for -/

/-- A child that has not carried out its request. -/
structure Starting (p : Task) : Prop where
  asForked : AsForked p
  piTopTask : p.piTopTask = none

/-- **What a child runs with.** -/
structure Obtained (i : Fin 21) (p : Task) : Prop where
  policy : p.policy = choice.policy
  rtPriority : p.rtPriority = (schedPriority h choice).toNat
  nice : choice = .cfsNice → taskNice h p = niceOf i
  prio : p.prio = choice.prio (taskNice h p)

/-- The request of a child. -/
def request (p : Task) : Attr :=
  setschedulerAttr h p (.policy choice.policy) false (schedPriority h choice).toNat

variable {h getparamDl choice parent pid}

/-- The choices with a real-time policy. -/
def Choice.realTime : Choice → Bool
  | .cfsDefault | .cfsNice => false
  | .rtFifo | .rtRr => true

theorem rtPolicy_policy (choice : Choice) : h.rtPolicy choice.policy = choice.realTime := by
  cases choice with
  | cfsDefault => exact h.rtPolicy_normal
  | cfsNice => exact h.rtPolicy_normal
  | rtFifo => exact h.rtPolicy_fifo
  | rtRr => exact h.rtPolicy_rr

theorem dlPolicy_policy (choice : Choice) : h.dlPolicy choice.policy = false := by
  cases choice with
  | cfsDefault => exact h.dlPolicy_normal
  | cfsNice => exact h.dlPolicy_normal
  | rtFifo => exact h.dlPolicy_fifo
  | rtRr => exact h.dlPolicy_rr

theorem schedPriority_toNat :
    (schedPriority h choice).toNat = if choice.realTime then 99 else 0 := by
  have hmax : h.maxRtPrio - 1 = 99 := by
    rw [h.maxRtPrio_eq]
    rfl
  cases choice with
  | cfsDefault => rfl
  | cfsNice => rfl
  | rtFifo =>
      show (h.maxRtPrio - 1).toNat = 99
      rw [hmax]
      rfl
  | rtRr =>
      show (h.maxRtPrio - 1).toNat = 99
      rw [hmax]
      rfl

variable {p t : Task} {i : Fin 21} {ctx : Context} {lock : LockContext}

theorem niceInRange_niceOf (i : Fin 21) : NiceInRange h (niceOf i) := by
  rw [NiceInRange, h.minNice_eq, h.maxNice_eq, niceOf]
  split
  · decide
  · split
    · decide
    · decide

theorem Starting.forked (ht : Forked h (h.copyProcess p) t) : Starting t :=
  ⟨⟨ht.policy, ht.rtPriority, ht.prio⟩, ht.piTopTask.trans (h.copyProcess_piTopTask p)⟩

theorem Starting.niced {nice : ℤ} (hp : Starting p) (ht : Niced h p nice t) : Starting t := by
  refine ⟨hp.asForked.niced ht, ?_⟩
  cases ht with
  | same => exact hp.piTopTask
  | stored _ _ => exact hp.piTopTask
  | used _ _ _ => exact hp.piTopTask

/-- The nice value of a real-time task is stored for later. -/
theorem taskNice_setUserNice {nice : ℤ} (hrt : h.rtPolicy p.policy = true)
    (hnice : NiceInRange h nice) :
    taskNice h (setUserNice h p nice) = nice := by
  obtain ⟨hlo, hhi⟩ := hnice
  unfold setUserNice
  split
  · rename_i hor
    rcases hor with heq | hlt | hgt
    · exact heq
    · exact absurd hlt (Int.not_lt.mpr hlo)
    · exact absurd hgt (Int.not_lt.mpr hhi)
  · rw [if_pos (by simp [hrt])]
    exact taskNice_of_static rfl

theorem check_request (hcap : ctx.capSysNice = true) (hsecurity : ctx.security = none)
    (p : Task) :
    check h ctx p (request h choice p) true = .ok ⟨choice.policy, false, false⟩ := by
  have hmax : ¬((request h choice p).schedPriority : ℤ) > h.maxRtPrio - 1 := by
    rw [h.maxRtPrio_eq]
    show ¬(((schedPriority h choice).toNat : ℤ) > _)
    rw [schedPriority_toNat]
    split
    · decide
    · decide
  have hvalid : (h.dlPolicy choice.policy && !ctx.checkparamDl ||
      h.rtPolicy choice.policy != ((request h choice p).schedPriority != 0)) = false := by
    show (_ || h.rtPolicy choice.policy != ((schedPriority h choice).toNat != 0)) = false
    rw [schedPriority_toNat, rtPolicy_policy, dlPolicy_policy]
    cases choice with
    | cfsDefault => rfl
    | cfsNice => rfl
    | rtFifo => rfl
    | rtRr => rfl
  show verify h ctx p (request h choice p) true ⟨choice.policy, false, false⟩ = _
  rw [verify, if_neg (by simp [request, setschedulerAttr]), if_neg hmax, if_neg (by simp [hvalid]),
    if_neg (by simp [hcap]), if_neg (by simp [request, setschedulerAttr])]
  simp [request, setschedulerAttr, hsecurity, raise, bind, Except.bind, pure, Except.pure]

/-- The request is carried out: for `SCHED_FIFO` nothing changes, for the others the
priority is the one that belongs to the policy. -/
theorem locked_request (hp : Starting p)
    (hnice : choice = .cfsNice → taskNice h p = niceOf i) (hstop : lock.isStop = false)
    (hgroup : lock.groupDenies = false) :
    ∃ t, Obtained h choice i t ∧
      (locked h lock none p (request h choice p) true true ⟨choice.policy, false, false⟩ =
        .kept t ∨
      locked h lock none p (request h choice p) true true ⟨choice.policy, false, false⟩ =
        .changed t) := by
  have hdl : h.dlPolicy choice.policy = false := dlPolicy_policy choice
  have hdlPrio : h.dlPrio 90 = false := by
    rw [← Bool.not_eq_true, dlPrio_iff]
    decide
  have hpriority : (request h choice p).schedPriority = if choice.realTime then 99 else 0 :=
    schedPriority_toNat
  by_cases hfifo : choice = .rtFifo
  · subst hfifo
    have hchanges : changes h lock p (request h .rtFifo p) .fifo = false :=
      hp.asForked.changes ⟨.inr rfl, hpriority, rfl⟩
    refine ⟨{ p with schedResetOnFork := false },
      ⟨hp.asForked.policy, ?_, (fun hne => nomatch hne), hp.asForked.prio⟩, .inl ?_⟩
    · rw [schedPriority_toNat]
      exact hp.asForked.rtPriority
    · rw [locked, if_neg (by simp [hstop]), if_pos (by simp [Choice.policy, hchanges])]
  · have hne : choice.policy ≠ .fifo := by
      cases choice with
      | rtFifo => exact absurd rfl hfifo
      | _ => simp [Choice.policy]
    have hchanges : changes h lock p (request h choice p) choice.policy = true := by
      simp [changes, hp.asForked.policy, hne]
    obtain ⟨t, hlocked⟩ : ∃ t, locked h lock none p (request h choice p) true true
        ⟨choice.policy, false, false⟩ = .changed t := by
      have hkeep : (request h choice p).schedFlags.keepParams = false := rfl
      simp [locked, hstop, hchanges, hgroup, hdl, hp.asForked.prio, hdlPrio, hkeep]
    have ht : Changed h none p (request h choice p) true ⟨choice.policy, false, false⟩ t :=
      changed_of_locked (.inr ⟨rfl, rfl⟩) hlocked
    have hfair : choice.policy = .normal → taskNice h t = taskNice h p := by
      intro hnormal
      rw [ht.nice, if_pos (by rw [hnormal]; exact h.fair_normal)]
      rfl
    refine ⟨t, ⟨ht.policy, ht.rtPriority, ?_, ?_⟩, .inr hlocked⟩
    · rintro rfl
      rw [hfair rfl, hnice rfl]
    · have hprio : t.prio = normalPrioOf h choice.policy (request h choice p).schedPriority
          (taskNice h p) := ht.prio
      rw [hprio]
      cases choice with
      | cfsDefault =>
          rw [hfair rfl]
          exact normalPrioOf_other h.dlPolicy_normal h.rtPolicy_normal _ _
      | cfsNice =>
          rw [hfair rfl]
          exact normalPrioOf_other h.dlPolicy_normal h.rtPolicy_normal _ _
      | rtFifo => exact absurd rfl hfifo
      | rtRr =>
          rw [hpriority]
          exact normalPrioOf_rt h.rtPolicy_rr _ _

/-! ## Steps of the rest of the system -/

variable {w w' : World} {e : Attributes.Event} {c : ℕ}

/-- The calls for the task `c` are its own. -/
def Own (w : World) (c : ℕ) : Prop :=
  ∀ k f, w.call k = some f → f.pid = c → k = c

theorem Own.setCall (hown : Own w c) {k : ℕ} {call : Option InFlight}
    (hcall : ∀ f, call = some f → f.pid = c → k = c) : Own (w.setCall k call) c := by
  intro j f hf
  by_cases hj : j = k
  · rw [hj, World.setCall_call, Function.update_self] at hf
    rw [hj]
    exact hcall f hf
  · rw [World.setCall_call, Function.update_of_ne hj] at hf
    exact hown j f hf

/-- An event that names `c` as the caller if it names it at all. -/
def OwnCall (c : ℕ) : Attributes.Event → Prop
  | .setscheduler k p _ _ _ _ | .setattr k p _ => p = c → k = c
  | _ => True

/-- An event that names one number only. -/
theorem ownCall_of_names {d : ℕ} (hnames : ∀ k ∈ names e, k = d) : OwnCall c e := by
  have hsame : ∀ {k p : ℕ}, (∀ q ∈ [k, p], q = d) → p = c → k = c := by
    intro k p hnames hp
    have hk : k = d := hnames k List.mem_cons_self
    have hd : p = d := hnames p (List.mem_cons_of_mem _ List.mem_cons_self)
    rw [hk, ← hd, hp]
  cases e with
  | setscheduler k p policy reset priority user => exact hsame hnames
  | setattr k p attr => exact hsame hnames
  | _ => trivial

theorem ownCall_of_not_mem (hc : c ∉ names e) : OwnCall c e := by
  have hother : ∀ {k p : ℕ}, c ∉ [k, p] → p = c → k = c := by
    rintro k p hc rfl
    exact absurd (List.mem_cons_of_mem _ List.mem_cons_self) hc
  cases e with
  | setscheduler k p policy reset priority user => exact hother hc
  | setattr k p attr => exact hother hc
  | _ => trivial

theorem own_of_step (hstep : Step h getparamDl w e w') (hown : Own w c) (he : OwnCall c e) :
    Own w' c := by
  cases hstep with
  | fork _ _ => exact hown
  | setUserNice _ => exact hown
  | nice _ => exact hown
  | niceFails => exact hown
  | rtMutexSetprio => exact hown
  | setscheduler =>
      refine hown.setCall ?_
      rintro f ⟨⟩
      exact he
  | setattr =>
      refine hown.setCall ?_
      rintro f ⟨⟩
      exact he
  | check hcall _ =>
      refine hown.setCall ?_
      rintro f ⟨⟩
      exact hown _ ⟨_, _, _, none⟩ hcall
  | checkFails => exact hown.setCall fun f hf => absurd hf (by simp)
  | recheck hcall =>
      refine hown.setCall ?_
      rintro f ⟨⟩
      exact hown _ ⟨_, _, _, some _⟩ hcall
  | kept _ => exact Own.setCall hown fun f hf => absurd hf (by simp)
  | changed _ _ _ => exact Own.setCall hown fun f hf => absurd hf (by simp)
  | lockFails => exact hown.setCall fun f hf => absurd hf (by simp)

/-- **What is not named does not change.** -/
theorem frame (hstep : Step h getparamDl w e w') (hown : Own w c) (hc : c ∉ names e) :
    w'.task c = w.task c ∧ w'.call c = w.call c := by
  have hcall : ∀ {k : ℕ} {f : InFlight}, w.call k = some f → c ≠ k → c ≠ f.pid := by
    intro k f hf hk hpid
    exact hk (hown k f hf hpid.symm).symm
  cases hstep with
  | fork _ _ => exact ⟨Function.update_of_ne (List.ne_of_not_mem_cons hc) _ _, rfl⟩
  | setUserNice _ => exact ⟨Function.update_of_ne (List.ne_of_not_mem_cons hc) _ _, rfl⟩
  | nice _ => exact ⟨Function.update_of_ne (List.ne_of_not_mem_cons hc) _ _, rfl⟩
  | niceFails => exact ⟨rfl, rfl⟩
  | rtMutexSetprio => exact ⟨Function.update_of_ne (List.ne_of_not_mem_cons hc) _ _, rfl⟩
  | setscheduler => exact ⟨rfl, Function.update_of_ne (List.ne_of_not_mem_cons hc) _ _⟩
  | setattr => exact ⟨rfl, Function.update_of_ne (List.ne_of_not_mem_cons hc) _ _⟩
  | check _ _ => exact ⟨rfl, Function.update_of_ne (List.ne_of_not_mem_cons hc) _ _⟩
  | checkFails => exact ⟨rfl, Function.update_of_ne (List.ne_of_not_mem_cons hc) _ _⟩
  | recheck _ => exact ⟨rfl, Function.update_of_ne (List.ne_of_not_mem_cons hc) _ _⟩
  | kept hf =>
      have hk := List.ne_of_not_mem_cons hc
      exact ⟨Function.update_of_ne (hcall hf hk) _ _, Function.update_of_ne hk _ _⟩
  | changed hf _ _ =>
      have hk := List.ne_of_not_mem_cons hc
      exact ⟨Function.update_of_ne (hcall hf hk) _ _, Function.update_of_ne hk _ _⟩
  | lockFails => exact ⟨rfl, Function.update_of_ne (List.ne_of_not_mem_cons hc) _ _⟩

/-! ## Where each child stands -/

/-- The task and the call of the child `i`, whose number is `c`, at each stage. -/
inductive Standing (h : Header) (choice : Choice) (i : Fin 21) (c : ℕ) (p : Task)
    (call : Option InFlight) : Stage → Prop where
  | unborn (hcall : call = none) : Standing h choice i c p call .unborn
  | forked (hp : Starting p) (hcall : call = none) : Standing h choice i c p call .forked
  | niced (hp : Starting p) (hnice : taskNice h p = niceOf i) (hcall : call = none) :
      Standing h choice i c p call .niced
  | asking (hp : Starting p) (hnice : choice = .cfsNice → taskNice h p = niceOf i)
      (hcall : call = some ⟨c, request h choice p, true, none⟩) :
      Standing h choice i c p call .asking
  | checked (hp : Starting p) (hnice : choice = .cfsNice → taskNice h p = niceOf i)
      (hcall : call =
        some ⟨c, request h choice p, true, some ⟨choice.policy, false, false⟩⟩) :
      Standing h choice i c p call .checked
  | working (hp : Obtained h choice i p) (hcall : call = none) :
      Standing h choice i c p call .working

structure Inv (h : Header) (choice : Choice) (pid : Fin 21 → ℕ) (s : State) : Prop where
  sound : Sound h s.world
  own : ∀ i, Own s.world (pid i)
  standing : ∀ i, Standing h choice i (pid i) (s.world.task (pid i)) (s.world.call (pid i))
    (s.stage i)
  unborn : ∀ i : Fin 21, s.forks ≤ i.val → s.stage i = .unborn

variable {s s' : State} {stage : Stage}

/-- A step of one child leaves the others where they are. -/
theorem Inv.move (hpid : Function.Injective pid) (hs : Inv h choice pid s)
    (hstep : Step h getparamDl s.world e w) (hnames : ∀ k ∈ names e, k = pid i)
    (hborn : i.val < s.forks)
    (hstanding : Standing h choice i (pid i) (w.task (pid i)) (w.call (pid i)) stage) :
    Inv h choice pid (s.move i stage w) := by
  refine ⟨hstep.sound hs.sound, fun j => ?_, fun j => ?_, fun j hj => ?_⟩
  · exact own_of_step hstep (hs.own j) (ownCall_of_names hnames)
  · by_cases hj : j = i
    · subst hj
      rw [State.move_world, State.move_stage, Function.update_self]
      exact hstanding
    · have hc : pid j ∉ names e := fun hmem => hj (hpid (hnames _ hmem))
      obtain ⟨htask, hcall⟩ := frame hstep (hs.own j) hc
      rw [State.move_world, State.move_stage, Function.update_of_ne hj, htask, hcall]
      exact hs.standing j
  · have hne : j ≠ i := by
      rintro rfl
      exact absurd hborn (Nat.not_lt.mpr hj)
    rw [State.move_stage, Function.update_of_ne hne]
    exact hs.unborn j hj

theorem Inv.moreForks (hs : Inv h choice pid s) {n : ℕ} (hn : s.forks ≤ n) :
    Inv h choice pid { s with forks := n } :=
  ⟨hs.sound, hs.own, hs.standing, fun i hi => hs.unborn i (hn.trans hi)⟩

theorem Inv.other (hs : Inv h choice pid s) (hstep : Step h getparamDl s.world e w)
    (hnames : ∀ i, pid i ∉ names e) : Inv h choice pid { s with world := w } := by
  refine ⟨hstep.sound hs.sound, fun i => ?_, fun i => ?_, hs.unborn⟩
  · exact own_of_step hstep (hs.own i) (ownCall_of_not_mem (hnames i))
  · obtain ⟨htask, hcall⟩ := frame hstep (hs.own i) (hnames i)
    show Standing h choice i (pid i) (w.task (pid i)) (w.call (pid i)) (s.stage i)
    rw [htask, hcall]
    exact hs.standing i

theorem Inv.born (hs : Inv h choice pid s) (hi : s.stage i ≠ .unborn) : i.val < s.forks :=
  Nat.lt_of_not_le fun hle => hi (hs.unborn i hle)

theorem topPrio_of_starting {p : ℕ} (hp : Starting (w.task p)) : w.topPrio p = none := by
  rw [World.topPrio, hp.piTopTask]
  rfl

/-- The stage in which a child asks. -/
theorem Standing.asks {call : Option InFlight} (hstanding : Standing h choice i c p call stage)
    (hstage : stage = if choice = .cfsNice then .niced else .forked) :
    Starting p ∧ (choice = .cfsNice → taskNice h p = niceOf i) ∧ stage ≠ .unborn := by
  by_cases hchoice : choice = .cfsNice
  · rw [if_pos hchoice] at hstage
    subst hstage
    cases hstanding with
    | niced hp hnice _ => exact ⟨hp, fun _ => hnice, by simp⟩
  · rw [if_neg hchoice] at hstage
    subst hstage
    cases hstanding with
    | forked hp _ => exact ⟨hp, fun hnice => absurd hnice hchoice, by simp⟩

/-- The request ends, and the child has what it asked for. -/
theorem obtained_of_lock (hp : Starting (w.task c))
    (hnice : choice = .cfsNice → taskNice h (w.task c) = niceOf i)
    (hcall : w.call c =
      some ⟨c, request h choice (w.task c), true, some ⟨choice.policy, false, false⟩⟩)
    (hstop : lock.isStop = false) (hgroup : lock.groupDenies = false)
    (hstep : Attributes.step h getparamDl w (.lock c lock) = some w') :
    Obtained h choice i (w'.task c) ∧ w'.call c = none := by
  obtain ⟨t, ht, hlocked⟩ := locked_request hp hnice hstop hgroup
  rw [← topPrio_of_starting hp] at hlocked
  have hend : w'.task c = t ∧ w'.call c = none := by
    rcases hlocked with hlocked | hlocked
    · simp only [Attributes.step, hcall, hlocked] at hstep
      obtain rfl := Option.some.inj hstep
      exact ⟨Function.update_self _ _ _, Function.update_self _ _ _⟩
    · simp only [Attributes.step, hcall, hlocked] at hstep
      obtain rfl := Option.some.inj hstep
      exact ⟨Function.update_self _ _ _, Function.update_self _ _ _⟩
  rw [hend.1]
  exact ⟨ht, hend.2⟩

theorem Inv.step (hpid : Function.Injective pid) (hs : Inv h choice pid s) {e : Event}
    (hevent : e.Privileged) (hstep : Children.step h getparamDl choice parent pid s e = some s') :
    Inv h choice pid s' := by
  cases e with
  | fork success =>
      obtain ⟨hi, heq⟩ : ∃ hi : s.forks < 21, _ := by
        simpa only [Children.step, Option.dite_none_right_eq_some] using hstep
      split at heq
      · obtain ⟨w, hw, rfl⟩ := Option.map_eq_some_iff.mp heq
        have hworld := step_cases hw
        refine Inv.move (s := { s with forks := s.forks + 1 }) hpid
          (hs.moreForks (Nat.le_succ _)) hworld (by simp [names]) (Nat.lt_succ_self _) ?_
        have hstanding := hs.standing ⟨s.forks, hi⟩
        rw [hs.unborn _ le_rfl] at hstanding
        obtain ⟨hcall⟩ := hstanding
        cases hworld with
        | fork _ ht =>
            refine .forked ?_ hcall
            rw [State.move_world, World.setTask_task, Function.update_self]
            exact .forked ht
      · obtain rfl := Option.some.inj heq
        exact hs.moreForks (Nat.le_succ _)
  | setpriority i =>
      obtain ⟨⟨hchoice, hstage⟩, heq⟩ := Option.ite_none_right_eq_some.mp hstep
      obtain ⟨w, hw, rfl⟩ := Option.map_eq_some_iff.mp heq
      refine hs.move hpid (step_cases hw) (by simp [names]) (hs.born (by simp [hstage])) ?_
      have hstanding := hs.standing i
      rw [hstage] at hstanding
      obtain rfl := Option.some.inj hw
      cases hstanding with
      | forked hp hcall =>
          rw [World.setTask_task, World.setTask_call, Function.update_self]
          refine .niced (hp.niced (setUserNice_spec h _ _)) ?_ hcall
          refine taskNice_setUserNice ?_ (niceInRange_niceOf i)
          rw [hp.asForked.policy]
          exact h.rtPolicy_fifo
  | setscheduler i =>
      obtain ⟨hstage, heq⟩ := Option.ite_none_right_eq_some.mp hstep
      obtain ⟨w, hw, rfl⟩ := Option.map_eq_some_iff.mp heq
      obtain ⟨hp, hnice, hborn⟩ := (hs.standing i).asks hstage
      refine hs.move hpid (step_cases hw) (by simp [names]) (hs.born hborn) ?_
      obtain ⟨-, hset⟩ := Option.ite_none_right_eq_some.mp hw
      obtain rfl := Option.some.inj hset
      rw [World.setCall_task, World.setCall_call, Function.update_self]
      exact .asking hp hnice rfl
  | check i ctx =>
      obtain ⟨hstage, heq⟩ := Option.ite_none_right_eq_some.mp hstep
      obtain ⟨w, hw, rfl⟩ := Option.map_eq_some_iff.mp heq
      refine hs.move hpid (step_cases hw) (by simp [names]) (hs.born (by simp [hstage])) ?_
      have hstanding := hs.standing i
      rw [hstage] at hstanding
      obtain ⟨hcap, hsecurity⟩ := hevent
      cases hstanding with
      | asking hp hnice hcall =>
          rw [step_check hcall (check_request hcap hsecurity _)] at hw
          obtain rfl := Option.some.inj hw
          rw [World.setCall_task, World.setCall_call, Function.update_self, if_neg (by simp)]
          exact .checked hp hnice rfl
  | lock i lock =>
      obtain ⟨hstage, heq⟩ := Option.ite_none_right_eq_some.mp hstep
      obtain ⟨w, hw, rfl⟩ := Option.map_eq_some_iff.mp heq
      refine hs.move hpid (step_cases hw) (by simp [names]) (hs.born (by simp [hstage])) ?_
      have hstanding := hs.standing i
      rw [hstage] at hstanding
      obtain ⟨hstop, hgroup⟩ := hevent
      cases hstanding with
      | checked hp hnice hcall =>
          obtain ⟨hobtained, hdone⟩ := obtained_of_lock hp hnice hcall hstop hgroup hw
          rw [if_pos hdone]
          exact .working hobtained hdone
  | other e =>
      obtain ⟨hnames, heq⟩ := Option.ite_none_right_eq_some.mp hstep
      obtain ⟨w, hw, rfl⟩ := Option.map_eq_some_iff.mp heq
      exact hs.other (step_cases hw) hnames

/-! ## What is compared -/

/-- The child runs, and has not carried out its request. -/
def Stage.Early : Stage → Prop
  | .unborn | .working => False
  | .forked | .niced | .asking | .checked => True

theorem starting_of_early {call : Option InFlight} (hstanding : Standing h choice i c p call stage)
    (hearly : stage.Early) : Starting p := by
  cases hstanding with
  | unborn _ => cases hearly
  | forked hp _ => exact hp
  | niced hp _ _ => exact hp
  | asking hp _ _ => exact hp
  | checked hp _ _ => exact hp
  | working _ _ => cases hearly

theorem obtained_of_working {call : Option InFlight}
    (hstanding : Standing h choice i c p call .working) : Obtained h choice i p := by
  cases hstanding with
  | working hp _ => exact hp

/-- Nobody has a call for the children under way. -/
theorem inv_start {w₀ : World} (hsound : Sound h w₀)
    (hcalls : ∀ i k f, w₀.call k = some f → k ≠ pid i ∧ f.pid ≠ pid i) :
    Inv h choice pid (start w₀) where
  sound := hsound
  own := fun i k f hf hpid => absurd hpid (hcalls i k f hf).2
  standing := fun i => by
    refine .unborn ?_
    cases hcall : w₀.call (pid i) with
    | none => exact hcall
    | some f => exact absurd rfl (hcalls i _ f hcall).1
  unborn := fun _ _ => rfl

theorem prio_lt_iff {nice : ℤ} (hnice : NiceInRange h nice) :
    90 < choice.prio nice ↔ choice.policy = .normal := by
  have hlo := hnice.1
  rw [h.minNice_eq] at hlo
  cases choice with
  | cfsDefault => exact iff_of_true (by show 90 < nice + 120; omega) rfl
  | cfsNice => exact iff_of_true (by show 90 < nice + 120; omega) rfl
  | rtFifo => exact iff_of_false (lt_irrefl 90) (by decide)
  | rtRr => exact iff_of_false (Int.not_lt.mpr (by decide : (0 : ℤ) ≤ 90)) (by decide)

/-- **What the program compares.** Whatever the order of the steps, every child that works
has the policy, the priority and the nice value that were chosen, but its place in the
queue is 90 under `SCHED_FIFO` and 0 under `SCHED_RR`; and a child that has not asked yet
goes before one that works just under CFS. -/
theorem children_prio (hpid : Function.Injective pid) {w₀ : World} (hsound : Sound h w₀)
    (hcalls : ∀ i k f, w₀.call k = some f → k ≠ pid i ∧ f.pid ≠ pid i) {es : List Event}
    (hrun : runFrom (step h getparamDl choice parent pid) (start w₀) es = some s)
    (hevents : ∀ e ∈ es, e.Privileged) {i : Fin 21} (hwork : s.stage i = .working) :
    Obtained h choice i (s.world.task (pid i)) ∧
      ∀ j, (s.stage j).Early →
        ((s.world.task (pid j)).prio < (s.world.task (pid i)).prio ↔
          choice.policy = .normal) := by
  have hinv : Inv h choice pid s := by
    refine history_invariant_of (I := fun _ s => Inv h choice pid s) (inv_start hsound hcalls) ?_
      (throughout_of_forall hevents) hrun
    exact fun _ s e s' hevent hstep hs => hs.step hpid hevent hstep
  have hstanding := hinv.standing i
  rw [hwork] at hstanding
  have hobtained := obtained_of_working hstanding
  refine ⟨hobtained, fun j hearly => ?_⟩
  have hstarting := starting_of_early (hinv.standing j) hearly
  rw [hstarting.asForked.prio, hobtained.prio]
  exact prio_lt_iff (hinv.sound.task _).nice

/-- The numbers of the children of task 1. -/
def pidOf (i : Fin 21) : ℕ :=
  i.val + 2

theorem pidOf_injective : Function.Injective pidOf := fun _ _ heq =>
  Fin.ext (Nat.add_right_cancel heq)

def root : Context :=
  ⟨true, 0, 0, true, none, none, true⟩

/-- The child `i` works before the child `j` has asked. -/
def twoChildren (i j : Fin 21) : List Event :=
  [.fork true, .fork true, .setpriority i, .setscheduler i, .other (.nice 30 5 owner),
    .check i root, .setpriority j, .lock i unlocked]

theorem children_prio_twoChildren : ∃ s,
    runFrom (step header noDl .cfsNice 1 pidOf) (start initial) (twoChildren 0 1) = some s ∧
      Obtained header .cfsNice 0 (s.world.task 2) ∧
      (s.world.task 3).prio < (s.world.task 2).prio := by
  obtain ⟨s, hrun, hwork, hniced⟩ : ∃ s,
      runFrom (step header noDl .cfsNice 1 pidOf) (start initial) (twoChildren 0 1) = some s ∧
        s.stage 0 = .working ∧ s.stage 1 = .niced := ⟨_, rfl, rfl, rfl⟩
  obtain ⟨hobtained, hbefore⟩ := children_prio pidOf_injective sound_initial
    (fun i k f hf => absurd hf (by simp [initial])) hrun (by simp [twoChildren, Event.Privileged,
      root, unlocked]) hwork
  exact ⟨s, hrun, hobtained, (hbefore 1 (by rw [hniced]; trivial)).mpr rfl⟩

end OS2023.Sched.Attributes.Children
