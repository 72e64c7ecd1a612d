import OS2023.Lib.Printf
import OS2023.Ps.Stat
import OS2023.Ps.Terminal

/-!
# The listing

`main` of `1/newps.c`: it finds its own terminal, walks through `/proc`, and
prints a line for each process on that terminal. The variables are declared in
front of the loop, so that each process finds what the one before has left in
them.
-/

namespace OS2023.Ps

open OS2023.Lib

/-! ## The code -/

/-- What `readdir` reports of an entry of `/proc`, and what stands below it: the
text of its `stat`, `none` if that cannot be opened, and the link `fd/0`. -/
structure Entry where
  isDir : Bool
  name : List Char
  stat : Option (List Char)
  link : Option LinkTarget

/-- `entry->d_type == DT_DIR && isdigit(entry->d_name[0])`. -/
def Entry.isProcess (e : Entry) : Bool :=
  e.isDir && (e.name.headD '\x00').isDigit

/-- The value of an `int` that is assigned from a `long`. -/
def toInt (v : Int) : Int :=
  (v + 2 ^ 31) % 2 ^ 32 - 2 ^ 31

/-- `hours`, `minutes` and `seconds` from the total in clock ticks. -/
def clockParts (totalTime hertz : Int) : Int × Int × Int :=
  let seconds := toInt (totalTime.tdiv hertz)
  let minutes := seconds.tdiv 60
  let hours := minutes.tdiv 60
  (hours, minutes.tmod 60, seconds.tmod 60)

/-- `"%02d:%02d:%02d"`. -/
def clockText (totalTime hertz : Int) : List Char :=
  let (hours, minutes, seconds) := clockParts totalTime hertz
  padInt 2 hours ++ ':' :: (padInt 2 minutes ++ ':' :: padInt 2 seconds)

def header : List Char :=
  "    PID TTY          TIME CMD\n".toList

/-- `"%7d %5s    %02d:%02d:%02d %s\n"`. -/
def lineText (hertz : Int) (row : Row) (tty : List Char) : List Char :=
  padLeft 7 (toString row.pid).toList ++ ' ' :: (padLeft 5 tty ++
    ("    ".toList ++ (clockText (row.utime + row.stime) hertz ++ ' ' :: (row.comm ++ ['\n']))))

/-- The printing of one process; the sum of the times must fit a `long`, and the
division must have a divisor. -/
def printLine (hertz : Int) (row : Row) (tty : List Char) : Option (List Char) :=
  if FitsSigned 64 (row.utime + row.stime) ∧ hertz ≠ 0 then some (lineText hertz row tty)
  else none

/-- The variables of `main` that live across the loop. -/
structure LoopVars where
  vars : Vars
  tty : TtyBuffer

/-- The body of the loop, with the text it prints. -/
def visit (hertz : Int) (currentTty : List Char) (v : LoopVars) (e : Entry) :
    Option (LoopVars × List Char) :=
  if e.isProcess then
    match e.stat with
    | none => some (v, [])
    | some line => do
        let (success, vars) ← readStat v.vars line
        if success then do
          let tty ← processTty e.link v.tty
          let name ← tty.cString
          if name = currentTty then do
            let row ← vars.row
            let text ← printLine hertz row name
            some (⟨vars, tty⟩, text)
          else some (⟨vars, tty⟩, [])
        else some (⟨vars, v.tty⟩, [])
  else some (v, [])

def visitAll (hertz : Int) (currentTty : List Char) (v : LoopVars) :
    List Entry → Option (List Char)
  | [] => some []
  | e :: es => do
      let (v, text) ← visit hertz currentTty v e
      let texts ← visitAll hertz currentTty v es
      some (text ++ texts)

/-- `main`, with its exit status and what it prints. `proc` is `none` when
`/proc` cannot be opened. -/
def newps (hertz : Int) (self : Option LinkTarget) (proc : Option (List Entry))
    (currentTty : TtyBuffer) (v : LoopVars) : Option (ℕ × List Char) := do
  let currentTty ← getSelfTty self currentTty
  match proc with
  | none => some (1, [])
  | some es => do
      let name ← currentTty.cString
      let text ← visitAll hertz name v es
      some (0, header ++ text)

/-! ## What is to be listed -/

/-- A process as the kernel shows it. -/
structure Process where
  record : ProcessRecord
  rest : List Char
  link : Option LinkTarget

def Process.terminal (p : Process) : List Char :=
  match p.link with
  | some target => terminalName target.path
  | none => ['?']

/-- The line of a process. -/
def Process.line (hertz : Int) (p : Process) : List Char :=
  lineText hertz p.record.row p.terminal

/-- Which process an entry stands for, `none` if it is no process or a process
that has gone in the meantime. -/
inductive Describes : Entry → Option Process → Prop where
  | other {e : Entry} (h : e.isProcess = false) : Describes e none
  | gone {e : Entry} (h : e.stat = none) : Describes e none
  | process {e : Entry} {p : Process} (h : e.isProcess = true)
      (stat : e.stat = some (p.record.render p.rest)) (link : e.link = p.link) :
      Describes e (some p)

/-- A process that `newps` can show: a plain record, a short or plain terminal,
and a sum of times that a `long` holds. -/
structure Process.Shown (p : Process) : Prop where
  plain : p.record.Plain
  short : ∀ target, p.link = some target → ShortOrPlain target
  sum : p.record.utime + p.record.stime < 2 ^ 63

variable {hertz : Int} {currentTty : List Char} {p : Process}

theorem processTty_terminal (h : p.Shown) (tty : TtyBuffer) :
    ∃ buf, processTty p.link tty = some buf ∧ buf.cString = some p.terminal := by
  unfold Process.terminal
  cases hlink : p.link with
  | none => exact processTty_of_failure tty
  | some target =>
      obtain ⟨buf, hterm, heq⟩ := processTty_eq target tty
      obtain ⟨buf', hrun, hterm'⟩ := removeDev_of_short hterm (h.short target hlink)
      exact ⟨buf', heq.trans hrun, hterm'.cString⟩

theorem getSelfTty_terminal {target : LinkTarget} (h : ShortOrPlain target)
    (ttyName : TtyBuffer) : ∃ buf, getSelfTty (some target) ttyName = some buf ∧
      buf.cString = some (terminalName target.path) := by
  obtain ⟨buf, hterm, heq⟩ := getSelfTty_eq target ttyName
  obtain ⟨buf', hrun, hterm'⟩ := removeDev_of_short hterm h
  exact ⟨buf', heq.trans hrun, hterm'.cString⟩

theorem printLine_shown (h : p.Shown) (hhertz : hertz ≠ 0) :
    printLine hertz p.record.row p.terminal = some (p.line hertz) := by
  refine if_pos ⟨?_, hhertz⟩
  have hsum := h.sum
  show FitsSigned 64 ((p.record.utime : Int) + (p.record.stime : Int))
  unfold FitsSigned
  omega

/-- **One turn of the loop.** Whatever the variables hold, a process on the
terminal is printed with its own values, and nothing else is. -/
theorem visit_process (hhertz : hertz ≠ 0) {e : Entry} (h : Describes e (some p))
    (hshown : p.Shown) (v : LoopVars) :
    ∃ v', visit hertz currentTty v e =
      some (v', if p.terminal = currentTty then p.line hertz else []) := by
  cases h with
  | process hproc hstat hlink =>
      obtain ⟨vars', hread, hrow⟩ := decodes_of_plain hshown.plain v.vars p.rest
      obtain ⟨tty', htty, hname⟩ := processTty_terminal hshown v.tty
      refine ⟨⟨vars', tty'⟩, ?_⟩
      simp only [visit, if_pos hproc, hstat, hread, hlink, htty, hname, Option.bind_eq_bind,
        Option.bind_some, if_true]
      by_cases heq : p.terminal = currentTty
      · rw [if_pos heq, if_pos heq, hrow, Option.bind_some, printLine_shown hshown hhertz]
        rfl
      · rw [if_neg heq, if_neg heq]

theorem visit_none {e : Entry} (h : Describes e none) (v : LoopVars) :
    visit hertz currentTty v e = some (v, []) := by
  cases h with
  | other hproc => rw [visit, if_neg (by simp [hproc])]
  | gone hstat =>
      unfold visit
      split
      · rw [hstat]
      · rfl

theorem visitAll_listed (hhertz : hertz ≠ 0) {es : List Entry} {ps : List (Option Process)}
    (h : List.Forall₂ Describes es ps) (hshown : ∀ p, some p ∈ ps → p.Shown) (v : LoopVars) :
    visitAll hertz currentTty v es =
      some (((ps.filterMap id).filter fun p => p.terminal = currentTty).flatMap
        fun p => p.line hertz) := by
  induction h generalizing v with
  | nil => rfl
  | @cons e q es ps hd _ ih =>
      have hrest := ih fun p hp => hshown p (List.mem_cons_of_mem _ hp)
      cases q with
      | none =>
          simp only [visitAll, visit_none hd, Option.bind_eq_bind, Option.bind_some, hrest]
          rfl
      | some p =>
          obtain ⟨v', hvisit⟩ : ∃ v', visit hertz currentTty v e =
              some (v', if p.terminal = currentTty then p.line hertz else []) :=
            visit_process hhertz hd (hshown p List.mem_cons_self) v
          simp only [visitAll, hvisit, Option.bind_eq_bind, Option.bind_some, hrest]
          rw [show (some p :: ps).filterMap id = p :: ps.filterMap id from rfl, List.filter_cons]
          by_cases heq : p.terminal = currentTty
          · simp [heq]
          · simp [heq]

/-- **The listing is exact.** When the program's own terminal and the processes
of `/proc` can be shown, it prints the header and then, in the order of the
directory, one line for each process on its own terminal and no other line; each
line holds the values of its process, whatever was read before. -/
theorem listing_exact (hhertz : hertz ≠ 0) {es : List Entry} {ps : List (Option Process)}
    (h : List.Forall₂ Describes es ps) (hshown : ∀ p, some p ∈ ps → p.Shown)
    {self : LinkTarget} (hself : ShortOrPlain self) (ttyName : TtyBuffer) (v : LoopVars) :
    newps hertz (some self) (some es) ttyName v =
      some (0, header ++
        ((ps.filterMap id).filter fun p => p.terminal = terminalName self.path).flatMap
          fun p => p.line hertz) := by
  obtain ⟨buf, hself, hname⟩ := getSelfTty_terminal hself ttyName
  rw [newps, hself]
  simp only [Option.bind_eq_bind, Option.bind_some, hname, visitAll_listed hhertz h hshown]

/-- The terminal `pts/0`. -/
def terminalLink : LinkTarget where
  path := "/dev/pts/0".toList
  length_le := by decide
  clean := by decide

theorem terminalLink_short : ShortOrPlain terminalLink :=
  Or.inr (by decide)

/-- A shell that has run for one minute and a half. -/
def shell : Process where
  record :=
    { pid := 1234
      comm := "bash".toList
      state := 'R'
      fields := List.replicate 10 1
      utime := 6000
      stime := 3000
      pid_lt := by decide
      comm_ne := by decide
      comm_length := by decide
      comm_line := by decide
      state_letter := by decide
      fields_length := by decide
      utime_lt := by decide
      stime_lt := by decide }
  rest := []
  link := some terminalLink

theorem shell_shown : shell.Shown where
  plain := by
    show _ ∧ _ ∧ _ ∧ _
    decide
  short := by
    rintro target ⟨rfl⟩
    exact terminalLink_short
  sum := by decide

/-- A directory with a file in it and the shell. -/
theorem listing_exact_shell : newps 100 (some terminalLink)
    (some [⟨false, "version".toList, none, none⟩,
      ⟨true, "1234".toList, some (shell.record.render []), some terminalLink⟩])
    (fun _ => 'x') ⟨initialVars, fun _ => 'x'⟩ = some (0, header ++ shell.line 100) := by
  have hentries : List.Forall₂ Describes
      [⟨false, "version".toList, none, none⟩,
        ⟨true, "1234".toList, some (shell.record.render []), some terminalLink⟩]
      [none, some shell] :=
    .cons (.other rfl) (.cons (.process rfl rfl rfl) .nil)
  have hshown : ∀ p, some p ∈ [none, some shell] → p.Shown := by
    intro p hp
    obtain rfl : p = shell := by simpa using hp
    exact shell_shown
  have hlist := listing_exact (by decide : (100 : Int) ≠ 0) hentries hshown terminalLink_short
    (fun _ => 'x') ⟨initialVars, fun _ => 'x'⟩
  rw [hlist]
  have hterminal : shell.terminal = terminalName terminalLink.path := rfl
  simp [hterminal]

/-! ## Reading a line -/

/-- `hh:mm:ss` as seconds, and what follows. -/
def readClock (s : List Char) : Option (Int × List Char) :=
  match scanInt ['-'] s with
  | .value hours (':' :: s) =>
    match scanInt ['-'] s with
    | .value minutes (':' :: s) =>
      match scanInt ['-'] s with
      | .value seconds s => some (hours * 3600 + minutes * 60 + seconds, s)
      | _ => none
    | _ => none
  | _ => none

/-- The process identifier, the terminal, the seconds and the name of a line. -/
def readLine (s : List Char) : Option (Int × List Char × Int × List Char) :=
  match scanInt ['-'] s with
  | .value pid s =>
    let tty := (skipSpaces s).takeWhile fun c => !isSpaceChar c
    match readClock ((skipSpaces s).dropWhile fun c => !isSpaceChar c) with
    | some (seconds, ' ' :: s) => some (pid, tty, seconds, s.takeWhile fun c => c != '\n')
    | _ => none
  | _ => none

theorem clockParts_seconds (totalTime hertz : Int) :
    (clockParts totalTime hertz).1 * 3600 + (clockParts totalTime hertz).2.1 * 60 +
      (clockParts totalTime hertz).2.2 = toInt (totalTime.tdiv hertz) := by
  simp only [clockParts]
  generalize toInt (totalTime.tdiv hertz) = seconds
  have hseconds := Int.mul_tdiv_add_tmod seconds 60
  have hminutes := Int.mul_tdiv_add_tmod (seconds.tdiv 60) 60
  omega

/-- **A printed time is read back** as the seconds that the `int` held. -/
theorem readClock_clockText {s : List Char} (hs : NoDigitHead s) (totalTime hertz : Int) :
    readClock (clockText totalTime hertz ++ s) = some (toInt (totalTime.tdiv hertz), s) := by
  have hread : ∀ {s : List Char} (v : Int), NoDigitHead s →
      scanInt ['-'] (padInt 2 v ++ s) = .value v s := fun v hs =>
    scanInt_padInt (by simp) (by decide) hs 2 v
  have hcolon : ∀ s, NoDigitHead (':' :: s) := by
    rintro s c ⟨rfl⟩
    decide
  rw [← clockParts_seconds]
  generalize hparts : clockParts totalTime hertz = parts
  obtain ⟨hours, minutes, seconds⟩ := parts
  simp only [clockText, hparts, List.append_assoc, List.cons_append, readClock,
    hread hours (hcolon _), hread minutes (hcolon _), hread seconds hs]

theorem readClock_skipSpaces (s : List Char) : readClock (skipSpaces s) = readClock s := by
  rw [readClock, scanInt_skipSpaces, readClock]

variable {tty : List Char} {row : Row}

/-- **A printed line is read back**, whatever the widths of its columns. -/
theorem readLine_lineText (hne : tty ≠ []) (htty : ∀ c ∈ tty, isSpaceChar c = false)
    (hcomm : '\n' ∉ row.comm) (hertz : Int) :
    readLine (lineText hertz row tty) =
      some (row.pid, tty, toInt ((row.utime + row.stime).tdiv hertz), row.comm) := by
  have hpid : ∀ s, scanInt ['-'] (padLeft 7 (toString row.pid).toList ++ ' ' :: s) =
      .value row.pid (' ' :: s) := by
    intro s
    rw [padLeft, List.append_assoc]
    refine scanInt_toString (by simp) (by decide) (fun c hc => ?_) (noDigitHead_space s) _
    rw [List.eq_of_mem_replicate hc]
    rfl
  have hspaces : ∀ s, skipSpaces (' ' :: (padLeft 5 tty ++ s)) = tty ++ s := by
    intro s
    cases tty with
    | nil => exact absurd rfl hne
    | cons c t =>
        rw [← skipSpaces_padLeft (htty c List.mem_cons_self) 5 t s]
        have hspace : ∀ x ∈ [' '], isSpaceChar x = true := by simp [isSpaceChar]
        exact skipSpaces_append hspace _
  have hrun : ∀ x ∈ tty, (!isSpaceChar x) = true := fun x hx => by simp [htty x hx]
  have htake : ∀ s, (tty ++ ("    ".toList ++ s)).takeWhile (fun c => !isSpaceChar c) = tty := by
    intro s
    show (tty ++ ' ' :: ("   ".toList ++ s)).takeWhile _ = tty
    rw [List.takeWhile_append_of_pos hrun, List.takeWhile_cons_of_neg (by simp [isSpaceChar]),
      List.append_nil]
  have hdrop : ∀ s, (tty ++ ("    ".toList ++ s)).dropWhile (fun c => !isSpaceChar c) =
      "    ".toList ++ s := by
    intro s
    show (tty ++ ' ' :: ("   ".toList ++ s)).dropWhile _ = _
    rw [List.dropWhile_append_of_pos hrun, List.dropWhile_cons_of_neg (by simp [isSpaceChar])]
    rfl
  have hclock : ∀ s, readClock ("    ".toList ++
      (clockText (row.utime + row.stime) hertz ++ ' ' :: s)) =
      some (toInt ((row.utime + row.stime).tdiv hertz), ' ' :: s) := by
    intro s
    rw [← readClock_skipSpaces, skipSpaces_append (by simp [isSpaceChar]), readClock_skipSpaces,
      readClock_clockText (noDigitHead_space s)]
  have hname : (row.comm ++ ['\n']).takeWhile (fun c => c != '\n') = row.comm := by
    rw [List.takeWhile_append_of_pos]
    · simp
    · intro c hc
      rw [bne_iff_ne]
      rintro rfl
      exact hcomm hc
  simp only [lineText, readLine, hpid, hspaces, htake, hdrop, hclock, hname]

/-- **What a line says.** What is printed of a process is read back to its
identifier, its terminal, its name and its time in seconds exactly when the
seconds fit an `int`; more are shown modulo `2 ^ 32`. -/
theorem line_read_back {ticks : ℕ} (hticks : 0 < ticks) (hshown : p.Shown)
    (hne : p.terminal ≠ []) (htty : ∀ c ∈ p.terminal, isSpaceChar c = false) :
    (printLine ticks p.record.row p.terminal).bind readLine =
      some ((p.record.pid : Int), p.terminal,
        (((p.record.utime + p.record.stime) / ticks : ℕ) : Int), p.record.comm) ↔
      (p.record.utime + p.record.stime) / ticks < 2 ^ 31 := by
  have htotal : ((p.record.utime : Int) + (p.record.stime : Int)).tdiv (ticks : Int) =
      (((p.record.utime + p.record.stime) / ticks : ℕ) : Int) := by
    rw [← Int.natCast_add]
    exact (Int.ofNat_tdiv _ _).symm
  have hread : (printLine ticks p.record.row p.terminal).bind readLine =
      some ((p.record.pid : Int), p.terminal,
        toInt ((p.record.utime + p.record.stime) / ticks : ℕ), p.record.comm) := by
    have hline : readLine (p.line ticks) = _ :=
      readLine_lineText hne htty p.record.comm_line ticks
    rw [printLine_shown hshown (Int.natCast_ne_zero.mpr hticks.ne'), Option.bind_some, ← htotal]
    exact hline
  rw [hread, Option.some.injEq, Prod.mk.injEq, Prod.mk.injEq, Prod.mk.injEq]
  simp only [true_and, and_true, toInt]
  generalize (p.record.utime + p.record.stime) / ticks = seconds
  omega

theorem shell_terminal : ∀ c ∈ shell.terminal, isSpaceChar c = false := by
  have hname : shell.terminal = ['p', 't', 's', '/', '0'] := rfl
  rw [hname]
  simp [isSpaceChar]

theorem line_read_back_shell : (printLine (100 : ℕ) shell.record.row shell.terminal).bind readLine =
    some (1234, "pts/0".toList, 90, "bash".toList) :=
  (line_read_back (by decide : 0 < 100) shell_shown (by decide) shell_terminal).mpr (by decide)

end OS2023.Ps
