import OS2023.Lib.Buffer
import OS2023.Lib.Format

/-!
# The `stat` line of a process

The loop of `1/newps.c` over `/proc` reads one line for each process, the record
that the kernel prints into `/proc/<pid>/stat`, with a single `fscanf`. The
command name is read up to the first closing parenthesis, though it may hold one
itself. The variables are those of `main`: what a call does not assign keeps the
value of the process before.
-/

namespace OS2023.Ps

open OS2023.Lib

/-! ## The code -/

/-- `" %ld %ld"`. -/
def timesFormat : List Directive :=
  [.spaces, .int (some 64)] ++ [.spaces, .int (some 64)]

/-- `") %*c %*d %*d %*d %*d %*d %*d %*d %*d %*d %*d %ld %ld"`. -/
def tailFormat : List Directive :=
  [.literal ')', .spaces, .skipChar] ++
    ((List.replicate 10 [.spaces, .int none]).flatten ++ timesFormat)

/-- `"%d (%[^)]) %*c %*d %*d %*d %*d %*d %*d %*d %*d %*d %*d %ld %ld"`. -/
def statFormat : List Directive :=
  [.int (some 32), .spaces, .literal '('] ++ ([.textUntil ')'] ++ tailFormat)

/-- The variables that `fscanf` assigns. -/
structure Vars where
  pid : Int
  comm : Buffer 256
  utime : Int
  stime : Int

def storePid : Value → Vars → Option Vars
  | .int v, vars => some { vars with pid := v }
  | .text _, _ => none

def storeComm : Value → Vars → Option Vars
  | .text t, vars => do
      let comm ← vars.comm.strcpy t
      some { vars with comm := comm }
  | .int _, _ => none

def storeUtime : Value → Vars → Option Vars
  | .int v, vars => some { vars with utime := v }
  | .text _, _ => none

def storeStime : Value → Vars → Option Vars
  | .int v, vars => some { vars with stime := v }
  | .text _, _ => none

/-- `&pid, comm, &utime, &stime`. -/
def arguments : List (Value → Vars → Option Vars) :=
  [storePid, storeComm, storeUtime, storeStime]

def assign : List (Value → Vars → Option Vars) → List Value → Vars → Option Vars
  | store :: args, v :: vs, vars => do
      let vars ← store v vars
      assign args vs vars
  | _, _, vars => some vars

/-- Whether the line counts as read, and the variables after it. -/
def readStat (vars : Vars) (line : List Char) : Option (Bool × Vars) := do
  let (count, values) ← fscanf statFormat line
  let vars ← assign arguments values vars
  some (decide (3 ≤ count), vars)

/-- What the loop knows of a process. -/
structure Row where
  pid : Int
  comm : List Char
  utime : Int
  stime : Int
deriving DecidableEq

def Vars.row (vars : Vars) : Option Row := do
  let comm ← vars.comm.cString
  some ⟨vars.pid, comm, vars.utime, vars.stime⟩

/-! ## The kernel's record -/

/-- The part of a process that the kernel prints first. The types are the
kernel's own: a `pid_t` and two unsigned 64-bit counters. -/
structure ProcessRecord where
  pid : ℕ
  comm : List Char
  state : Char
  fields : List Int
  utime : ℕ
  stime : ℕ
  pid_lt : pid < 2 ^ 31
  comm_ne : comm ≠ []
  comm_length : comm.length ≤ 15
  comm_line : '\n' ∉ comm
  state_letter : state.isAlpha = true
  fields_length : fields.length = 10
  utime_lt : utime < 2 ^ 64
  stime_lt : stime < 2 ^ 64

def spaced (v : Int) : List Char :=
  ' ' :: (toString v).toList

def ProcessRecord.renderTimes (r : ProcessRecord) (rest : List Char) : List Char :=
  spaced r.utime ++ (spaced r.stime ++ ' ' :: rest)

def ProcessRecord.renderTail (r : ProcessRecord) (rest : List Char) : List Char :=
  ' ' :: r.state :: (r.fields.flatMap spaced ++ r.renderTimes rest)

/-- `pid (comm) state f1 ... f10 utime stime ...`. -/
def ProcessRecord.render (r : ProcessRecord) (rest : List Char) : List Char :=
  (toString (r.pid : Int)).toList ++ (' ' :: '(' :: (r.comm ++ ')' :: r.renderTail rest))

def ProcessRecord.row (r : ProcessRecord) : Row :=
  ⟨r.pid, r.comm, r.utime, r.stime⟩

/-- The line counts as read, and the variables are those of the record. -/
def Decodes (vars : Vars) (r : ProcessRecord) (rest : List Char) : Prop :=
  ∃ vars', readStat vars (r.render rest) = some (true, vars') ∧ vars'.row = some r.row

/-- No closing parenthesis in the name, no terminator either, and times that a
`long` can hold. -/
def ProcessRecord.Plain (r : ProcessRecord) : Prop :=
  ')' ∉ r.comm ∧ '\x00' ∉ r.comm ∧ r.utime < 2 ^ 63 ∧ r.stime < 2 ^ 63

/-! ## The parts of the line -/

variable {vars vars' : Vars} {r : ProcessRecord} {rest s : List Char} {values : List Value}

theorem isSpaceChar_of_isAlpha {c : Char} (hc : c.isAlpha = true) : isSpaceChar c = false := by
  by_contra hsp
  rw [Bool.not_eq_false] at hsp
  simp only [isSpaceChar, Bool.or_eq_true, beq_iff_eq] at hsp
  rcases hsp with ((((rfl | rfl) | rfl) | rfl) | rfl) | rfl <;> exact absurd hc (by decide)

theorem isSpaceChar_of_mem : ∀ c ∈ [' '], isSpaceChar c = true := by
  simp [isSpaceChar]

theorem noDigitHead_space (s : List Char) : NoDigitHead (' ' :: s) := by
  rintro c ⟨rfl⟩
  decide

theorem fitsSigned_natCast {n : ℕ} : FitsSigned 64 (n : Int) ↔ n < 2 ^ 63 := by
  unfold FitsSigned
  omega

theorem reads_header (r : ProcessRecord) (s : List Char) :
    Reads [.int (some 32), .spaces, .literal '(']
      ((toString (r.pid : Int)).toList ++ (' ' :: '(' :: s)) [.int r.pid] s := by
  have hpid : FitsSigned 32 (r.pid : Int) := by
    have hlt := r.pid_lt
    unfold FitsSigned
    omega
  have hint : Reads [.int (some 32)] ((toString (r.pid : Int)).toList ++ (' ' :: '(' :: s))
      [.int r.pid] (' ' :: '(' :: s) :=
    reads_int [] hpid (by simp) (noDigitHead_space _)
  exact hint.append ((reads_spaces (by decide) s).append (reads_literal '(' s))

theorem reads_state (r : ProcessRecord) (s : List Char) :
    Reads [.literal ')', .spaces, .skipChar] (')' :: ' ' :: r.state :: s) [] s := by
  have hstate := isSpaceChar_of_isAlpha r.state_letter
  exact (reads_literal ')' _).append ((reads_spaces hstate s).append (reads_skipChar r.state s))

theorem noDigitHead_fields (fs : List Int) (hs : NoDigitHead s) :
    NoDigitHead (fs.flatMap spaced ++ s) := by
  cases fs with
  | nil => exact hs
  | cons f fs => exact noDigitHead_space _

/-- Every suppressed conversion takes one field. -/
theorem reads_fields (fs : List Int) (hs : NoDigitHead s) :
    Reads (List.replicate fs.length [.spaces, .int none]).flatten
      (fs.flatMap spaced ++ s) [] s := by
  induction fs with
  | nil => exact Reads.nil s
  | cons f fs ih =>
      have hfield : Reads [.int none] ([' '] ++ ((toString f).toList ++ (fs.flatMap spaced ++ s)))
          [] (fs.flatMap spaced ++ s) :=
        reads_skipInt isSpaceChar_of_mem (noDigitHead_fields fs hs) f
      rw [List.length_cons, List.replicate_succ, List.flatten_cons, List.flatMap_cons,
        List.append_assoc]
      exact hfield.spaces_int.append ih

theorem reads_time {n : ℕ} (hn : n < 2 ^ 63) (hs : NoDigitHead s) :
    Reads [.spaces, .int (some 64)] (spaced n ++ s) [.int n] s := by
  have htime : Reads [.int (some 64)] ([' '] ++ ((toString (n : Int)).toList ++ s)) [.int n] s :=
    reads_int [' '] (fitsSigned_natCast.mpr hn) isSpaceChar_of_mem hs
  exact htime.spaces_int

/-- A time that is too large leaves the call without a meaning. -/
theorem scanFormat_time_eq_none {n : ℕ} (hn : ¬n < 2 ^ 63) (hs : NoDigitHead s)
    (ds : List Directive) (started : Bool) (values : List Value) :
    scanFormat started values ([.spaces, .int (some 64)] ++ ds) (spaced n ++ s) = none := by
  have hundef : Directive.execute (.int (some 64)) (spaced n ++ s) = .undefined :=
    execute_int_of_not_fits [' '] (mt fitsSigned_natCast.mp hn) isSpaceChar_of_mem hs
  have hspaces : Directive.execute .spaces (spaced n ++ s) =
      .matched none (skipSpaces (spaced n ++ s)) := rfl
  rw [← execute_int_skipSpaces] at hundef
  rw [List.cons_append, scanFormat, hspaces]
  simp only [List.cons_append, scanFormat, hundef]

/-! ## The line as a whole -/

/-- The format has read the process identifier when it comes to the name. -/
theorem fscanf_render (r : ProcessRecord) (rest : List Char) :
    ∃ started, fscanf statFormat (r.render rest) =
      scanFormat started [.int r.pid] ([.textUntil ')'] ++ tailFormat)
        (r.comm ++ ')' :: r.renderTail rest) :=
  (reads_header r _).scanFormat_append _ false []

theorem scanFormat_tail (r : ProcessRecord) (rest : List Char) (started : Bool)
    (values : List Value) :
    ∃ started', scanFormat started values tailFormat (')' :: r.renderTail rest) =
      scanFormat started' values timesFormat (r.renderTimes rest) := by
  have hfields := reads_fields (s := r.renderTimes rest) r.fields (noDigitHead_space _)
  rw [r.fields_length] at hfields
  obtain ⟨started', heq⟩ :=
    ((reads_state r _).append hfields).scanFormat_append timesFormat started values
  rw [List.append_nil, List.append_nil] at heq
  exact ⟨started', heq⟩

/-- A name without a closing parenthesis is read whole, and the format comes to
the two times. -/
theorem fscanf_of_not_mem (hparen : ')' ∉ r.comm) (rest : List Char) :
    ∃ started, fscanf statFormat (r.render rest) =
      scanFormat started [.int r.pid, .text r.comm] timesFormat (r.renderTimes rest) := by
  obtain ⟨started₁, hheader⟩ := fscanf_render r rest
  obtain ⟨started₂, hname⟩ := (reads_textUntil r.comm_ne hparen
    (r.renderTail rest)).scanFormat_append tailFormat started₁ [.int r.pid]
  obtain ⟨started₃, htail⟩ := scanFormat_tail r rest started₂ [.int r.pid, .text r.comm]
  exact ⟨started₃, hheader.trans (hname.trans htail)⟩

/-- **A plain record is read to its end.** -/
theorem fscanf_of_plain (h : r.Plain) (rest : List Char) :
    fscanf statFormat (r.render rest) =
      some (4, [.int r.pid, .text r.comm, .int r.utime, .int r.stime]) := by
  obtain ⟨hparen, -, hutime, hstime⟩ := h
  obtain ⟨started, hfront⟩ := fscanf_of_not_mem hparen rest
  obtain ⟨started', htimes⟩ := ((reads_time hutime (noDigitHead_space _)).append
    (reads_time hstime (noDigitHead_space rest))).scanFormat_append [] started
      [.int r.pid, .text r.comm]
  rw [List.append_nil] at htimes
  exact hfront.trans htimes

/-- Whatever happens, a line that counts as read begins with these two values. -/
theorem values_of_fscanf {count : Int}
    (h : fscanf statFormat (r.render rest) = some (count, values)) (hcount : 3 ≤ count) :
    ∃ more, values =
      .int r.pid :: .text (r.comm.takeWhile fun c => c != ')') :: more := by
  obtain ⟨started₁, hheader⟩ := fscanf_render r rest
  obtain ⟨s, hsplit⟩ := exists_append_stop ')' r.comm (r.renderTail rest)
  rw [hheader, hsplit] at h
  by_cases hne : r.comm.takeWhile (fun c => c != ')') = []
  · -- the set matches no character, one value has been assigned
    rw [hne] at h
    obtain ⟨rfl, -⟩ := Prod.mk.inj (Option.some.inj h)
    exact absurd hcount (by simp)
  · obtain ⟨started₂, hname⟩ := (reads_textUntil hne (stop_not_mem_takeWhile ')' r.comm)
      s).scanFormat_append tailFormat started₁ [.int r.pid]
    rw [hname] at h
    obtain ⟨more, hmore⟩ := prefix_of_scanFormat h
    exact ⟨more, hmore.symm⟩

/-- No line with a time that is too large has a meaning. -/
theorem times_of_fscanf (hparen : ')' ∉ r.comm)
    (h : fscanf statFormat (r.render rest) ≠ none) :
    r.utime < 2 ^ 63 ∧ r.stime < 2 ^ 63 := by
  obtain ⟨started, hfront⟩ := fscanf_of_not_mem hparen rest
  rw [hfront] at h
  have hutime : r.utime < 2 ^ 63 := by
    by_contra hlarge
    exact h (scanFormat_time_eq_none hlarge (noDigitHead_space _) _ _ _)
  refine ⟨hutime, ?_⟩
  by_contra hlarge
  obtain ⟨started', hstime⟩ := (reads_time hutime (noDigitHead_space _)).scanFormat_append
    [.spaces, .int (some 64)] started [.int r.pid, .text r.comm]
  exact h (hstime.trans (scanFormat_time_eq_none hlarge (noDigitHead_space rest) [] _ _))

/-! ## The variables -/

theorem readStat_eq_true {line : List Char} :
    readStat vars line = some (true, vars') ↔ ∃ count values,
      fscanf statFormat line = some (count, values) ∧
      assign arguments values vars = some vars' ∧ 3 ≤ count := by
  unfold readStat
  simp only [Option.bind_eq_bind, Option.bind_eq_some_iff, Prod.exists, Option.some.injEq,
    Prod.mk.injEq, decide_eq_true_eq]
  constructor
  · rintro ⟨count, values, hscan, _, hassign, hcount, rfl⟩
    exact ⟨count, values, hscan, hassign, hcount⟩
  · rintro ⟨count, values, hscan, hassign, hcount⟩
    exact ⟨count, values, hscan, vars', hassign, hcount, rfl⟩

/-- Arguments that leave the name alone, one by one, leave it alone together. -/
theorem assign_comm {args : List (Value → Vars → Option Vars)}
    (hargs : ∀ store ∈ args, ∀ v vars vars', store v vars = some vars' →
      vars'.comm = vars.comm)
    (h : assign args values vars = some vars') : vars'.comm = vars.comm := by
  induction args generalizing values vars with
  | nil =>
      rw [assign.eq_2 _ _ _ (by simp)] at h
      rw [Option.some.inj h]
  | cons store args ih =>
      cases values with
      | nil =>
          rw [assign.eq_2 _ _ _ (by simp)] at h
          rw [Option.some.inj h]
      | cons v values =>
          obtain ⟨vars₁, hstore, hrest⟩ := Option.bind_eq_some_iff.mp h
          have htail := ih (fun store hmem => hargs store (List.mem_cons_of_mem _ hmem)) hrest
          rw [htail, hargs store List.mem_cons_self v vars vars₁ hstore]

theorem comm_of_assign {p : Int} {t : List Char} {more : List Value}
    (h : assign arguments (.int p :: .text t :: more) vars = some vars') :
    vars.comm.strcpy t = some vars'.comm := by
  -- the identifier is stored without fail
  obtain ⟨vars₂, hstore, h₂⟩ := Option.bind_eq_some_iff.mp h
  obtain ⟨comm, hcopy, hcomm⟩ := Option.bind_eq_some_iff.mp hstore
  obtain rfl := Option.some.inj hcomm
  have hframe : vars'.comm = comm := by
    refine assign_comm ?_ h₂
    intro store hmem v vars vars' hstore
    simp only [List.mem_cons, List.not_mem_nil, or_false] at hmem
    rcases hmem with rfl | rfl <;> cases v with
    | int v =>
        obtain rfl := Option.some.inj hstore
        rfl
    | text t => exact absurd hstore (by simp [storeUtime, storeStime])
  rw [hframe]
  exact hcopy

/-- **The name that is found ends at the first closing parenthesis.** -/
theorem comm_of_readStat (h : readStat vars (r.render rest) = some (true, vars')) :
    vars'.comm.cString =
      some ((r.comm.takeWhile fun c => c != ')').takeWhile fun c => c != '\x00') := by
  obtain ⟨count, values, hscan, hassign, hcount⟩ := readStat_eq_true.mp h
  obtain ⟨more, rfl⟩ := values_of_fscanf hscan hcount
  have hle : (r.comm.takeWhile fun c => c != ')').length ≤ 15 :=
    (List.takeWhile_prefix _).length_le.trans r.comm_length
  obtain ⟨comm, hcopy, hstring⟩ := cString_strcpy vars.comm (Nat.lt_of_le_of_lt hle (by decide))
  rw [comm_of_assign hassign] at hcopy
  rw [Option.some.inj hcopy]
  exact hstring

theorem plain_of_decodes (h : Decodes vars r rest) : r.Plain := by
  obtain ⟨vars', hread, hrow⟩ := h
  have hcomm := comm_of_readStat hread
  obtain ⟨count, values, hscan, -⟩ := readStat_eq_true.mp hread
  simp only [Vars.row, hcomm, Option.bind_eq_bind, Option.bind_some, Option.some.injEq] at hrow
  have heq : (r.comm.takeWhile fun c => c != ')').takeWhile (fun c => c != '\x00') = r.comm :=
    congrArg Row.comm hrow
  have hparen : ')' ∉ r.comm := by
    intro hmem
    rw [← heq] at hmem
    exact stop_not_mem_takeWhile ')' r.comm ((List.takeWhile_prefix _).subset hmem)
  have hnul : '\x00' ∉ r.comm := by
    intro hmem
    rw [← heq] at hmem
    exact stop_not_mem_takeWhile '\x00' _ hmem
  have hdefined : fscanf statFormat (r.render rest) ≠ none := by
    rw [hscan]
    exact Option.some_ne_none _
  exact ⟨hparen, hnul, times_of_fscanf hparen hdefined⟩

theorem decodes_of_plain (h : r.Plain) (vars : Vars) (rest : List Char) :
    Decodes vars r rest := by
  have hlt : r.comm.length < 256 := Nat.lt_of_le_of_lt r.comm_length (by decide)
  obtain ⟨comm, hcopy, hstring⟩ := cString_strcpy vars.comm hlt
  have hclean : r.comm.takeWhile (fun c => c != '\x00') = r.comm := by
    rw [List.takeWhile_eq_self_iff]
    intro c hc
    rw [bne_iff_ne]
    rintro rfl
    exact h.2.1 hc
  rw [hclean] at hstring
  refine ⟨⟨r.pid, comm, r.utime, r.stime⟩, readStat_eq_true.mpr
    ⟨_, _, fscanf_of_plain h rest, ?_, by decide⟩, ?_⟩
  · simp only [assign, arguments, storePid, storeComm, storeUtime, storeStime, hcopy,
      Option.bind_eq_bind, Option.bind_some]
  · simp only [Vars.row, hstring, Option.bind_eq_bind, Option.bind_some]
    rfl

/-- **A record is recovered exactly when it is plain**, whatever the variables
held before and whatever follows on the line. -/
theorem decodes_iff (vars : Vars) (r : ProcessRecord) (rest : List Char) :
    Decodes vars r rest ↔ r.Plain := by
  constructor
  · intro h
    exact plain_of_decodes h
  · intro h
    exact decodes_of_plain h vars rest

/-- A process whose command name is `a)b`. -/
def parenRecord : ProcessRecord where
  pid := 1
  comm := "a)b".toList
  state := 'S'
  fields := List.replicate 10 0
  utime := 0
  stime := 0
  pid_lt := by decide
  comm_ne := by decide
  comm_length := by decide
  comm_line := by decide
  state_letter := by decide
  fields_length := by decide
  utime_lt := by decide
  stime_lt := by decide

def initialVars : Vars :=
  ⟨0, fun _ => 'x', 0, 0⟩

theorem not_decodes_paren : ¬Decodes initialVars parenRecord ['0', '\n'] ∧
    (readStat initialVars (parenRecord.render ['0', '\n'])).map Prod.fst = some false := by
  constructor
  · intro h
    exact absurd (plain_of_decodes h).1 (by decide)
  · decide

end OS2023.Ps
