import OS2023.Paging.Files

/-!
# The program from its first question on

`main` of `4/as4.c` as a function of what it finds: the standard input, the
files, and the values of `rand`. A question is asked until the variable is in
range. The variable is not initialised, and a conversion that fails leaves it as it
is, and of the input takes the white space and a sign only; so a first answer that is
no number is undefined, and a text that is none behind a wrong answer keeps the program
asking for ever, as the end of the input does.
-/

namespace OS2023.Paging

open OS2023.Lib

/-! ## Questions -/

/-- Why the program does not go on. -/
inductive Stuck where
  | undefined
  | loops
deriving DecidableEq

def retryPrompt : String :=
  "유효하지 않은 선택입니다. 다시 선택해주세요: "

/-- `scanf("%d", &x)` for a variable that holds `x`. -/
def rescan (x : Int) (stdin : List Char) : Option (Int × List Char) :=
  match scanInt ['+', '-'] stdin with
  | .eof => some (x, [])
  | .mismatch rest => some (x, rest)
  | .value v rest => if fitsInt v then some (v, rest) else none

/-- `while (x < 1 || x > hi) { printf(...); scanf("%d", &x); }`, with what is
printed. -/
def askLoop (hi : Int) : ℕ → Int → List Char → Except Stuck (Int × List Char × List String)
  | 0, _, _ => .error .loops
  | fuel + 1, x, stdin =>
      if x < 1 ∨ x > hi then
        match rescan x stdin with
        | none => .error .undefined
        | some (x, stdin) => do
            let (v, rest, out) ← askLoop hi fuel x stdin
            .ok (v, rest, retryPrompt :: out)
      else .ok (x, stdin, [])

/-- A question with the answers `1 .. hi`. The loop comes to an end within as many
turns as there are characters, or not at all: see `askLoop_loops_iff`. -/
def ask (prompt : String) (hi : Int) (stdin : List Char) :
    Except Stuck (Int × List Char × List String) :=
  match scanInt ['+', '-'] stdin with
  | .value x rest =>
      if fitsInt x then do
        let (v, rest, out) ← askLoop hi (rest.length + 1) x rest
        .ok (v, rest, prompt :: out)
      else .error .undefined
  | _ => .error .undefined

/-! ## The menu -/

structure Answers where
  virtualAddressBits : Int
  pageSize : Int
  physicalMemorySize : Int
  pageReplacementAlgorithm : Int
  fileOption : Int
deriving DecidableEq

def promptA : String :=
  "A. Simulation에 사용할 가상주소 길이를 선택하시오 (1. 18bits 2. 19bits 3. 20bits): "

def promptB : String :=
  "\nB. Simulation에 사용할 페이지(프레임)의 크기를 선택하시오 (1. 1KB 2. 2KB 3. 4KB): "

def promptC : String :=
  "\nC. Simulation에 사용할 물리메모리의 크기를 선택하시오 (1. 32KB 2. 64KB): "

def promptD : String :=
  "\nD. Simulation에 적용할 Page Replacement 알고리즘을 선택하시오 \n    " ++
    "(1. Optimal 2. FIFO 3. LRU 4. Second-Chance): "

def promptE : String :=
  "\nE. 가상주소 스트링 입력방식을 선택하시오\n    (1. input.in 자동 생성, 2. 기존 파일 사용): "

def promptF : String :=
  "\nF. 입력 파일 이름을 입력하시오: "

/-- The five questions, with what is left of the input and what was printed. -/
def menu (stdin : List Char) : Except Stuck (Answers × List Char × List String) := do
  let (bits, stdin, outA) ← ask promptA 3 stdin
  let (page, stdin, outB) ← ask promptB 3 stdin
  let (memory, stdin, outC) ← ask promptC 2 stdin
  let (alg, stdin, outD) ← ask promptD 4 stdin
  let (option, stdin, outE) ← ask promptE 2 stdin
  .ok (⟨bits, page, memory, alg, option⟩, stdin, outA ++ outB ++ outC ++ outD ++ outE)

def Answers.config (a : Answers) : Config where
  virtualAddressBits :=
    if a.virtualAddressBits = 1 then 18 else if a.virtualAddressBits = 2 then 19 else 20
  pageSize := if a.pageSize = 1 then 1 else if a.pageSize = 2 then 2 else 4
  physicalMemorySize := if a.physicalMemorySize = 1 then 32 else 64
  bits_mem := by split <;> [skip; split] <;> simp
  page_mem := by split <;> [skip; split] <;> simp
  memory_mem := by split <;> simp

def Answers.algorithm (a : Answers) : Algorithm :=
  if a.pageReplacementAlgorithm = 1 then .optimal
  else if a.pageReplacementAlgorithm = 2 then .fifo
  else if a.pageReplacementAlgorithm = 3 then .lru
  else .sc

def outputName : Algorithm → List Char
  | .optimal => "output.opt".toList
  | .fifo => "output.fifo".toList
  | .lru => "output.lru".toList
  | .sc => "output.sc".toList

/-! ## Files -/

/-- What the program finds. `rand` gives the values of `rand()` in their order. -/
structure World where
  stdin : List Char
  files : List Char → Option (List Char)
  readable : List Char → Bool
  writable : List Char → Bool
  rand : ℕ → ℕ

/-- `fopen(name, "r")`, as the text of the file. -/
def World.openRead (w : World) (name : List Char) : Option (List Char) :=
  if w.readable name then w.files name else none

/-- The files after `name` has been written anew. -/
def World.write (w : World) (name text : List Char) : World :=
  { w with files := Function.update w.files name (some text) }

@[simp] theorem World.files_write_self (w : World) (name text : List Char) :
    (w.write name text).files name = some text :=
  Function.update_self _ _ _

theorem World.files_write_of_ne (w : World) {name other : List Char} (h : other ≠ name)
    (text : List Char) : (w.write name text).files other = w.files other :=
  Function.update_of_ne h _ _

def inputName : List Char :=
  "input.in".toList

/-- The addresses written to `input.in`. -/
def generated (w : World) (virtualAddressBits : ℕ) : List ℕ :=
  List.ofFn fun i : Fin numAddresses => w.rand i % (1 <<< virtualAddressBits)

/-- `scanf("%s", fileName)` into 256 characters; `none` where it is undefined or
leaves the name uninitialised. -/
def scanName (stdin : List Char) : Option (List Char) :=
  let name := (skipSpaces stdin).takeWhile fun c => !isSpaceChar c
  if name = [] ∨ 256 ≤ name.length then none else some name

def cannotOpen : String :=
  "파일을 열 수 없습니다.\n"

/-- How the program ends. -/
inductive Ending where
  | stuck (why : Stuck)
  | exited (status : ℕ) (stdout stderr : List String) (files : List Char → Option (List Char))

/-- From the open address file on. -/
def simulateFile (w : World) (a : Answers) (out : List String) (file : List Char) : Ending :=
  match runMain a.config a.algorithm file with
  | none => .stuck .undefined
  | some (.error message) => .exited 1 (out ++ [message]) [] w.files
  | some (.ok m) =>
      if w.writable (outputName a.algorithm) then
        .exited 0 (out ++ m.sim.stdout) []
          (w.write (outputName a.algorithm) (outputText m)).files
      else .stuck .undefined

/-- From the answers on. -/
def runAnswers (w : World) (a : Answers) (stdin : List Char) (out : List String) : Ending :=
  if a.fileOption = 1 then
    if w.writable inputName then
      let w := w.write inputName (lines (generated w a.config.virtualAddressBits))
      match w.openRead inputName with
      | none => .exited 1 out [cannotOpen] w.files
      | some file => simulateFile w a out file
    else .exited 1 out [cannotOpen] w.files
  else
    match scanName stdin with
    | none => .stuck .undefined
    | some name =>
        match w.openRead name with
        | none => .exited 1 (out ++ [promptF]) [cannotOpen] w.files
        | some file => simulateFile w a (out ++ [promptF]) file

/-- `main`. -/
def asMain (w : World) : Ending :=
  match menu w.stdin with
  | .error why => .stuck why
  | .ok (a, stdin, out) => runAnswers w a stdin out

/-! ## Asking for ever -/

section Questions

variable {hi x : Int} {stdin : List Char}

/-- The variable and the input after `n` turns of a loop that is not left. -/
def afterTurns (x : Int) (stdin : List Char) : ℕ → Option (Int × List Char)
  | 0 => some (x, stdin)
  | n + 1 => (rescan x stdin).bind fun p => afterTurns p.1 p.2 n

/-- The loop is never left, and never undefined. -/
def AsksForever (hi x : Int) (stdin : List Char) : Prop :=
  ∀ n, ∃ y rest, afterTurns x stdin n = some (y, rest) ∧ (y < 1 ∨ y > hi)

theorem AsksForever.next (h : AsksForever hi x stdin) :
    (x < 1 ∨ x > hi) ∧ ∃ y rest, rescan x stdin = some (y, rest) ∧ AsksForever hi y rest := by
  have hnow : x < 1 ∨ x > hi := by
    obtain ⟨y, rest, hstart, hout⟩ := h 0
    obtain ⟨rfl, -⟩ := Prod.mk.inj (Option.some.inj hstart)
    exact hout
  cases hscan : rescan x stdin with
  | none =>
      obtain ⟨y, rest, hone, -⟩ := h 1
      rw [afterTurns, hscan] at hone
      exact absurd hone (by simp)
  | some p =>
      refine ⟨hnow, p.1, p.2, rfl, fun n => ?_⟩
      obtain ⟨y, rest, hturns, hout⟩ := h (n + 1)
      rw [afterTurns, hscan] at hturns
      exact ⟨y, rest, hturns, hout⟩

theorem AsksForever.of_next {y : Int} {rest : List Char} (hx : x < 1 ∨ x > hi)
    (hscan : rescan x stdin = some (y, rest)) (h : AsksForever hi y rest) :
    AsksForever hi x stdin := by
  intro n
  cases n with
  | zero => exact ⟨x, stdin, rfl, hx⟩
  | succ n =>
      obtain ⟨z, rest', hturns, hout⟩ := h n
      refine ⟨z, rest', ?_, hout⟩
      rw [afterTurns, hscan]
      exact hturns

/-- A conversion that moves nothing moves nothing the next time either. -/
theorem asksForever_of_fixed (hx : x < 1 ∨ x > hi)
    (hscan : rescan x stdin = some (x, stdin)) : AsksForever hi x stdin := by
  intro n
  induction n with
  | zero => exact ⟨x, stdin, rfl, hx⟩
  | succ n ih =>
      rw [afterTurns, hscan]
      exact ih

/-- A turn makes the input shorter or changes nothing. -/
theorem rescan_progress {y : Int} {rest : List Char} (h : rescan x stdin = some (y, rest)) :
    rest.length < stdin.length ∨ (y = x ∧ rest = stdin) := by
  unfold rescan at h
  cases hscan : scanInt ['+', '-'] stdin with
  | eof =>
      rw [hscan] at h
      obtain ⟨rfl, rfl⟩ := Prod.mk.inj (Option.some.inj h)
      cases stdin with
      | nil => exact Or.inr ⟨rfl, rfl⟩
      | cons c s => exact Or.inl (by simp)
  | mismatch s =>
      rw [hscan] at h
      obtain ⟨rfl, rfl⟩ := Prod.mk.inj (Option.some.inj h)
      have hsuffix := scanInt_leaves.1 hscan
      rcases Nat.lt_or_eq_of_le hsuffix.length_le with hlt | heq
      · exact Or.inl hlt
      · exact Or.inr ⟨rfl, hsuffix.eq_of_length heq⟩
  | value v s =>
      rw [hscan] at h
      simp only at h
      split at h
      · obtain ⟨rfl, rfl⟩ := Prod.mk.inj (Option.some.inj h)
        exact Or.inl (scanInt_leaves.2 _ hscan)
      · exact absurd h (by simp)

/-- One turn of the loop. -/
theorem askLoop_turn (hx : x < 1 ∨ x > hi) {y : Int} {rest : List Char}
    (hscan : rescan x stdin = some (y, rest)) (fuel : ℕ) :
    askLoop hi (fuel + 1) x stdin =
      (askLoop hi fuel y rest).map fun r => (r.1, r.2.1, retryPrompt :: r.2.2) := by
  simp only [askLoop, if_pos hx, hscan]
  cases askLoop hi fuel y rest with
  | ok r => rfl
  | error why => rfl

theorem askLoop_of_forever (fuel : ℕ) :
    ∀ {x stdin}, AsksForever hi x stdin → askLoop hi fuel x stdin = .error .loops := by
  induction fuel with
  | zero => exact fun _ => rfl
  | succ fuel ih =>
      intro x stdin h
      obtain ⟨hx, y, rest, hscan, hnext⟩ := h.next
      rw [askLoop_turn hx hscan, ih hnext]
      rfl

/-- The loop that gives up has asked once more than the input has characters, so
that some turn has changed nothing. -/
theorem forever_of_askLoop (fuel : ℕ) : ∀ {x stdin}, stdin.length < fuel →
    askLoop hi fuel x stdin = .error .loops → AsksForever hi x stdin := by
  induction fuel with
  | zero => exact fun h => absurd h (Nat.not_lt_zero _)
  | succ fuel ih =>
      intro x stdin hfuel h
      by_cases hx : x < 1 ∨ x > hi
      · cases hscan : rescan x stdin with
        | none =>
            rw [askLoop, if_pos hx, hscan] at h
            exact absurd h (by simp)
        | some p =>
            obtain ⟨y, rest⟩ := p
            rcases rescan_progress hscan with hlt | ⟨rfl, rfl⟩
            · refine AsksForever.of_next hx hscan (ih (by omega) ?_)
              rw [askLoop_turn hx hscan] at h
              cases hrun : askLoop hi fuel y rest with
              | ok r =>
                  rw [hrun] at h
                  exact absurd h (by simp [Except.map])
              | error why =>
                  rw [hrun] at h
                  exact h
            · exact asksForever_of_fixed hx hscan
      · rw [askLoop, if_neg hx] at h
        exact absurd h (by simp)

/-- **The loop has enough turns**: it gives up exactly when it is never left. -/
theorem askLoop_loops_iff {fuel : ℕ} (hfuel : stdin.length < fuel) :
    askLoop hi fuel x stdin = .error .loops ↔ AsksForever hi x stdin :=
  ⟨forever_of_askLoop fuel hfuel, askLoop_of_forever fuel⟩

theorem ask_of_value (prompt : String) {v : Int} {rest : List Char}
    (hscan : scanInt ['+', '-'] stdin = .value v rest) (hfits : fitsInt v) :
    ask prompt hi stdin =
      (askLoop hi (rest.length + 1) v rest).map fun r => (r.1, r.2.1, prompt :: r.2.2) := by
  simp only [ask, hscan, if_pos hfits]
  cases askLoop hi (rest.length + 1) v rest with
  | ok r => rfl
  | error why => rfl

/-- A question is asked for ever exactly when its loop is never left. -/
theorem ask_loops_iff (prompt : String) : ask prompt hi stdin = .error .loops ↔
    ∃ x rest, scanInt ['+', '-'] stdin = .value x rest ∧ fitsInt x ∧ AsksForever hi x rest := by
  constructor
  · intro h
    cases hscan : scanInt ['+', '-'] stdin with
    | eof => simp [ask, hscan] at h
    | mismatch s => simp [ask, hscan] at h
    | value v rest =>
        by_cases hfits : fitsInt v
        · refine ⟨v, rest, rfl, hfits, forever_of_askLoop _ (Nat.lt_succ_self _) ?_⟩
          rw [ask_of_value prompt hscan hfits] at h
          cases hrun : askLoop hi (rest.length + 1) v rest with
          | ok r =>
              rw [hrun] at h
              exact absurd h (by simp [Except.map])
          | error why =>
              rw [hrun] at h
              exact h
        · simp [ask, hscan, hfits] at h
  · rintro ⟨x, rest, hscan, hfits, hforever⟩
    rw [ask_of_value prompt hscan hfits, askLoop_of_forever _ hforever]
    rfl

/-! ## Wrong answers -/

/-- `n` conversions that answer nothing, in a loop that is not left: a wrong number, or
a sign that no digit follows. The sign is lost. -/
inductive Passed (hi : Int) : List Char → ℕ → List Char → Prop where
  | nil (s : List Char) : Passed hi s 0 s
  | number {s s' mid : List Char} {v : Int} {n : ℕ}
      (hscan : scanInt ['+', '-'] s = .value v s') (hfits : fitsInt v) (hv : v < 1 ∨ v > hi)
      (t : Passed hi s' n mid) : Passed hi s (n + 1) mid
  | sign {s s' mid : List Char} {n : ℕ} (hsign : LoneSign ['+', '-'] s s')
      (t : Passed hi s' n mid) : Passed hi s (n + 1) mid

/-- A question has been asked anew `n` times, and `mid` is left of the input. The first
conversion sets the variable. -/
inductive Asked (hi : Int) (stdin : List Char) : ℕ → List Char → Prop where
  | first : Asked hi stdin 0 stdin
  | again {s' mid : List Char} {v : Int} {n : ℕ}
      (hscan : scanInt ['+', '-'] stdin = .value v s') (hfits : fitsInt v)
      (hv : v < 1 ∨ v > hi) (t : Passed hi s' n mid) : Asked hi stdin (n + 1) mid

/-- The question is asked anew `n` times and then answered with `v`. -/
def Answered (hi : Int) (stdin : List Char) (n : ℕ) (v : Int) (rest : List Char) : Prop :=
  ∃ mid, Asked hi stdin n mid ∧ scanInt ['+', '-'] mid = .value v rest ∧ fitsInt v ∧
    1 ≤ v ∧ v ≤ hi

/-- Behind a wrong answer stands what no conversion gets past. -/
def Unanswered (hi : Int) (stdin : List Char) : Prop :=
  ∃ n mid, Asked hi stdin (n + 1) mid ∧ NoNumber ['+', '-'] mid

/-- The variable is used before it has a value, or gets one that no `int` holds. -/
def Undefined (hi : Int) (stdin : List Char) : Prop :=
  NoNumber ['+', '-'] stdin ∨ (∃ rest, LoneSign ['+', '-'] stdin rest) ∨
    ∃ n mid v rest, Asked hi stdin n mid ∧ scanInt ['+', '-'] mid = .value v rest ∧ ¬fitsInt v

theorem Passed.length_le {n : ℕ} {s mid : List Char} (h : Passed hi s n mid) :
    n + mid.length ≤ s.length := by
  induction h with
  | nil => simp
  | number hscan _ _ _ ih =>
      have hlt := scanInt_leaves.2 _ hscan
      omega
  | sign hsign _ ih =>
      have hlt := hsign.length_lt
      omega

theorem rescan_of_value {v : Int} {rest : List Char}
    (hscan : scanInt ['+', '-'] stdin = .value v rest) (hfits : fitsInt v) (x : Int) :
    rescan x stdin = some (v, rest) := by
  simp only [rescan, hscan, if_pos hfits]

theorem rescan_of_loneSign {rest : List Char} (hsign : LoneSign ['+', '-'] stdin rest)
    (x : Int) : rescan x stdin = some (x, rest) := by
  simp only [rescan, scanInt_of_loneSign hsign]

theorem rescan_of_noNumber (hno : NoNumber ['+', '-'] stdin) (x : Int) :
    rescan x stdin = some (x, skipSpaces stdin) := by
  rcases scanInt_of_noNumber hno with ⟨hscan, hskip⟩ | hscan
  · simp only [rescan, hscan, hskip]
  · simp only [rescan, hscan]

/-- What is no number stays where it is, once the white space is gone. -/
theorem asksForever_of_noNumber (hx : x < 1 ∨ x > hi) (hno : NoNumber ['+', '-'] stdin) :
    AsksForever hi x stdin := by
  have hstays : rescan x (skipSpaces stdin) = some (x, skipSpaces stdin) := by
    rw [rescan_of_noNumber hno.skipSpaces, skipSpaces_idem]
  exact AsksForever.of_next hx (rescan_of_noNumber hno x) (asksForever_of_fixed hx hstays)

/-- What the loop prints and returns after `n` more turns. -/
def addRetries (n : ℕ) (r : Int × List Char × List String) : Int × List Char × List String :=
  (r.1, r.2.1, List.replicate n retryPrompt ++ r.2.2)

/-- Turn by turn, one more prompt. -/
theorem askLoop_turns {y z : Int} {s mid : List Char} {n fuel fuel' : ℕ}
    (hx : x < 1 ∨ x > hi) (hscan : rescan x stdin = some (y, s))
    (hrest : askLoop hi fuel' y s = (askLoop hi fuel z mid).map (addRetries n)) :
    askLoop hi (fuel' + 1) x stdin = (askLoop hi fuel z mid).map (addRetries (n + 1)) := by
  rw [askLoop_turn hx hscan, hrest]
  cases askLoop hi fuel z mid with
  | ok r => rfl
  | error why => rfl

/-- The loop passes over wrong answers, and then holds the last wrong number. -/
theorem askLoop_passed {n : ℕ} {mid : List Char} (hpassed : Passed hi stdin n mid) :
    ∀ {x : Int}, (x < 1 ∨ x > hi) → ∃ y, (y < 1 ∨ y > hi) ∧
      ∀ fuel, askLoop hi (fuel + n) x stdin =
        (askLoop hi fuel y mid).map (addRetries n) := by
  induction hpassed with
  | nil s =>
      intro x hx
      refine ⟨x, hx, fun fuel => ?_⟩
      rw [Nat.add_zero]
      cases askLoop hi fuel x s with
      | ok r => rfl
      | error why => rfl
  | number hscan hfits hv _ ih =>
      intro x hx
      obtain ⟨y, hy, hrest⟩ := ih hv
      exact ⟨y, hy, fun fuel =>
        askLoop_turns hx (rescan_of_value hscan hfits x) (hrest fuel)⟩
  | sign hsign _ ih =>
      intro x hx
      obtain ⟨y, hy, hrest⟩ := ih hx
      exact ⟨y, hy, fun fuel => askLoop_turns hx (rescan_of_loneSign hsign x) (hrest fuel)⟩

/-- A question that has been asked anew. -/
theorem ask_again (prompt : String) {n : ℕ} {mid : List Char}
    (hasked : Asked hi stdin (n + 1) mid) :
    ∃ y fuel, (y < 1 ∨ y > hi) ∧ mid.length < fuel ∧ ask prompt hi stdin =
      (askLoop hi fuel y mid).map fun r => (r.1, r.2.1, prompt ::
        (List.replicate n retryPrompt ++ r.2.2)) := by
  cases hasked with
  | @again s' _ v _ hscan hfits hv hpassed =>
      obtain ⟨y, hy, hloop⟩ := askLoop_passed hpassed hv
      have hlen := hpassed.length_le
      refine ⟨y, s'.length + 1 - n, hy, by omega, ?_⟩
      have hrun := hloop (s'.length + 1 - n)
      rw [Nat.sub_add_cancel (by omega)] at hrun
      rw [ask_of_value prompt hscan hfits, hrun]
      cases askLoop hi (s'.length + 1 - n) y mid with
      | ok r => rfl
      | error why => rfl

/-! ## How a question ends -/

theorem ask_answered (prompt : String) {n : ℕ} {v : Int} {rest : List Char}
    (h : Answered hi stdin n v rest) :
    ask prompt hi stdin = .ok (v, rest, prompt :: List.replicate n retryPrompt) := by
  obtain ⟨mid, hasked, hscan, hfits, hlo, hhi⟩ := h
  have hright : ¬(v < 1 ∨ v > hi) := by omega
  have hdone : ∀ fuel, askLoop hi (fuel + 1) v rest = .ok (v, rest, []) := by
    intro fuel
    rw [askLoop, if_neg hright]
  cases n with
  | zero =>
      cases hasked
      rw [ask_of_value prompt hscan hfits, hdone]
      rfl
  | succ n =>
      obtain ⟨y, fuel, hy, hfuel, hask⟩ := ask_again prompt hasked
      have hpos : 0 < mid.length := (Nat.zero_le _).trans_lt (scanInt_leaves.2 _ hscan)
      obtain ⟨k, rfl⟩ : ∃ k, fuel = k + 1 + 1 := ⟨fuel - 2, by omega⟩
      rw [hask, askLoop_turn hy (rescan_of_value hscan hfits y), hdone]
      show Except.ok (v, rest, prompt :: (List.replicate n retryPrompt ++ [retryPrompt])) = _
      rw [← List.replicate_succ']

theorem ask_unanswered (prompt : String) (h : Unanswered hi stdin) :
    ask prompt hi stdin = .error .loops := by
  obtain ⟨n, mid, hasked, hno⟩ := h
  obtain ⟨y, fuel, hy, -, hask⟩ := ask_again prompt hasked
  rw [hask, askLoop_of_forever fuel (asksForever_of_noNumber hy hno)]
  rfl

theorem ask_undefined (prompt : String) (h : Undefined hi stdin) :
    ask prompt hi stdin = .error .undefined := by
  rcases h with hno | ⟨rest, hsign⟩ | ⟨n, mid, v, rest, hasked, hscan, hbig⟩
  · rcases scanInt_of_noNumber hno with ⟨hscan, -⟩ | hscan
    · simp only [ask, hscan]
    · simp only [ask, hscan]
  · simp only [ask, scanInt_of_loneSign hsign]
  · cases n with
    | zero =>
        cases hasked
        simp only [ask, hscan, if_neg hbig]
    | succ n =>
        obtain ⟨y, fuel, hy, hfuel, hask⟩ := ask_again prompt hasked
        obtain ⟨k, rfl⟩ : ∃ k, fuel = k + 1 := ⟨fuel - 1, by omega⟩
        have hrescan : rescan y mid = none := by
          simp only [rescan, hscan, if_neg hbig]
        rw [hask, askLoop, if_pos hy, hrescan]
        rfl

/-- A number is a wrong answer, or it is in range if it fits at all. -/
theorem wrong_or_right (hi v : Int) :
    (fitsInt v ∧ (v < 1 ∨ v > hi)) ∨ (fitsInt v → 1 ≤ v ∧ v ≤ hi) := by
  by_cases hwrong : v < 1 ∨ v > hi
  · by_cases hfits : fitsInt v
    · exact .inl ⟨hfits, hwrong⟩
    · exact .inr fun h => absurd h hfits
  · exact .inr fun _ => by omega

/-- Every input has a place that wrong answers lead to and that is none itself. -/
theorem exists_passed (hi : Int) : ∀ (k : ℕ) (s : List Char), s.length ≤ k →
    ∃ n mid, Passed hi s n mid ∧ (NoNumber ['+', '-'] mid ∨
      ∃ v rest, scanInt ['+', '-'] mid = .value v rest ∧ (fitsInt v → 1 ≤ v ∧ v ≤ hi)) := by
  intro k
  induction k with
  | zero =>
      intro s hs
      obtain rfl := List.length_eq_zero_iff.mp (Nat.le_zero.mp hs)
      refine ⟨0, [], .nil [], .inl fun c hc => ?_⟩
      cases hc
  | succ k ih =>
      intro s hs
      rcases scanInt_cases ['+', '-'] s with hno | ⟨s', hsign⟩ | ⟨v, s', hscan⟩
      · exact ⟨0, s, .nil s, .inl hno⟩
      · have hlt := hsign.length_lt
        obtain ⟨n, mid, hpassed, hend⟩ := ih s' (by omega)
        exact ⟨n + 1, mid, .sign hsign hpassed, hend⟩
      · rcases wrong_or_right hi v with ⟨hfits, hv⟩ | hright
        · have hlt := scanInt_leaves.2 _ hscan
          obtain ⟨n, mid, hpassed, hend⟩ := ih s' (by omega)
          exact ⟨n + 1, mid, .number hscan hfits hv hpassed, hend⟩
        · exact ⟨0, s, .nil s, .inr ⟨v, s', hscan, hright⟩⟩

/-- A value that is not wrong answers the question or fits no `int`. -/
theorem Asked.ends {n : ℕ} {mid rest : List Char} {v : Int} (hasked : Asked hi stdin n mid)
    (hscan : scanInt ['+', '-'] mid = .value v rest) (hv : fitsInt v → 1 ≤ v ∧ v ≤ hi) :
    (∃ n v rest, Answered hi stdin n v rest) ∨ Undefined hi stdin := by
  by_cases hfits : fitsInt v
  · exact .inl ⟨n, v, rest, mid, hasked, hscan, hfits, hv hfits⟩
  · exact .inr (.inr (.inr ⟨n, mid, v, rest, hasked, hscan, hfits⟩))

/-- There is no fourth ending. -/
theorem question_ends (hi : Int) (stdin : List Char) :
    (∃ n v rest, Answered hi stdin n v rest) ∨ Unanswered hi stdin ∨ Undefined hi stdin := by
  rcases scanInt_cases ['+', '-'] stdin with hno | hsign | ⟨v, s', hscan⟩
  · exact .inr (.inr (.inl hno))
  · exact .inr (.inr (.inr (.inl hsign)))
  · rcases wrong_or_right hi v with ⟨hfits, hv⟩ | hright
    · obtain ⟨n, mid, hpassed, hend⟩ := exists_passed hi _ s' le_rfl
      have hasked : Asked hi stdin (n + 1) mid := .again hscan hfits hv hpassed
      rcases hend with hno | ⟨u, rest, hnumber, hu⟩
      · exact .inr (.inl ⟨n, mid, hasked, hno⟩)
      · exact (hasked.ends hnumber hu).imp_right .inr
    · exact (Asked.first.ends hscan hright).imp_right .inr

/-- **How a question ends**, on every input. An answer in range is taken, after one more
prompt for each wrong number and for each lone sign in front of it, the sign being lost.
Where the input ends, or goes on behind white space with what is no number, the variable
has no value if nothing was read before, and the loop is never left if a wrong answer
was. A number that no `int` holds is undefined in any place, and so is a sign alone in
the first. -/
theorem question_endings (prompt : String) (hi : Int) (stdin : List Char) :
    (∀ v rest out, ask prompt hi stdin = .ok (v, rest, out) ↔
      ∃ n, Answered hi stdin n v rest ∧ out = prompt :: List.replicate n retryPrompt) ∧
    (ask prompt hi stdin = .error .loops ↔ Unanswered hi stdin) ∧
    (ask prompt hi stdin = .error .undefined ↔ Undefined hi stdin) ∧
    (Unanswered hi stdin ↔ ∃ x rest, scanInt ['+', '-'] stdin = .value x rest ∧ fitsInt x ∧
      AsksForever hi x rest) := by
  have hloops : ask prompt hi stdin = .error .loops ↔ Unanswered hi stdin := by
    refine ⟨fun hask => ?_, ask_unanswered prompt⟩
    rcases question_ends hi stdin with ⟨n, u, rest', hu⟩ | hloop | hundef
    · simp [ask_answered prompt hu] at hask
    · exact hloop
    · simp [ask_undefined prompt hundef] at hask
  refine ⟨fun v rest out => ⟨fun hask => ?_, ?_⟩, hloops, ⟨fun hask => ?_, ask_undefined prompt⟩,
    hloops.symm.trans (ask_loops_iff prompt)⟩
  · rcases question_ends hi stdin with ⟨n, u, rest', hu⟩ | hloop | hundef
    · rw [ask_answered prompt hu] at hask
      simp only [Except.ok.injEq, Prod.mk.injEq] at hask
      obtain ⟨rfl, rfl, rfl⟩ := hask
      exact ⟨n, hu, rfl⟩
    · simp [ask_unanswered prompt hloop] at hask
    · simp [ask_undefined prompt hundef] at hask
  · rintro ⟨n, hv, rfl⟩
    exact ask_answered prompt hv
  · rcases question_ends hi stdin with ⟨n, u, rest', hu⟩ | hloop | hundef
    · simp [ask_answered prompt hu] at hask
    · simp [ask_unanswered prompt hloop] at hask
    · exact hundef

/-- A wrong answer, and behind the newline what is no number; and a wrong answer, a sign
alone and a right answer. -/
theorem question_endings_newline :
    ask promptA 3 ['9', '\n', 'x', '\n'] = .error .loops ∧
    ask promptA 3 ['9', ' ', '+', ' ', '2'] =
      .ok (2, [], [promptA, retryPrompt, retryPrompt]) := by
  have hnine : fitsInt 9 := by decide
  have hjunk : NoNumber ['+', '-'] ['\n', 'x', '\n'] := by
    intro c hc
    obtain rfl : 'x' = c := Option.some.inj hc
    decide
  have hsign : LoneSign ['+', '-'] [' ', '+', ' ', '2'] [' ', '2'] := by
    refine ⟨'+', by decide, rfl, fun c hc => ?_⟩
    obtain rfl : ' ' = c := Option.some.inj hc
    decide
  have hloop : Unanswered 3 ['9', '\n', 'x', '\n'] :=
    ⟨0, _, .again rfl hnine (by decide) (.nil _), hjunk⟩
  have htwo : Answered 3 ['9', ' ', '+', ' ', '2'] 2 2 [] :=
    ⟨_, .again rfl hnine (by decide) (.sign hsign (.nil _)), rfl, by decide, by decide,
      by decide⟩
  exact ⟨(question_endings promptA 3 _).2.1.mpr hloop,
    ((question_endings promptA 3 _).1 2 [] _).mpr ⟨2, htwo, rfl⟩⟩

end Questions

/-! ## From the questions to the output file -/

/-- Every question gets its answer, after any number of wrong ones. -/
def Dialog (stdin : List Char) (a : Answers) (rest : List Char) : Prop :=
  ∃ s₁ s₂ s₃ s₄, (∃ n, Answered 3 stdin n a.virtualAddressBits s₁) ∧
    (∃ n, Answered 3 s₁ n a.pageSize s₂) ∧ (∃ n, Answered 2 s₂ n a.physicalMemorySize s₃) ∧
    (∃ n, Answered 4 s₃ n a.pageReplacementAlgorithm s₄) ∧
    ∃ n, Answered 2 s₄ n a.fileOption rest

theorem menu_of_dialog {stdin rest : List Char} {a : Answers} (h : Dialog stdin a rest) :
    ∃ out, menu stdin = .ok (a, rest, out) := by
  obtain ⟨s₁, s₂, s₃, s₄, ⟨_, hA⟩, ⟨_, hB⟩, ⟨_, hC⟩, ⟨_, hD⟩, ⟨_, hE⟩⟩ := h
  unfold menu
  rw [ask_answered promptA hA]
  simp only [bind, Except.bind, ask_answered promptB hB, ask_answered promptC hC,
    ask_answered promptD hD, ask_answered promptE hE]
  exact ⟨_, rfl⟩

section Generated

variable {w : World} {a : Answers}

/-- The addresses that option 1 makes of the values of `rand`. -/
def randomAddresses (w : World) (cfg : Config) : Fin numAddresses → Int :=
  fun i => ((w.rand i % cfg.totalVirtualMemory : ℕ) : Int)

theorem randomAddresses_inRange (w : World) (cfg : Config) :
    InRange cfg (randomAddresses w cfg) := by
  intro i
  have hpos : 0 < cfg.totalVirtualMemory := by
    rw [← cfg.totalPage_mul]
    exact Nat.mul_pos cfg.totalPage_pos (Nat.lt_trans Nat.zero_lt_one cfg.one_lt_pageSizeBytes)
  have hlt := Nat.mod_lt (w.rand i) hpos
  exact ⟨Int.natCast_nonneg _, Int.ofNat_lt.mpr hlt⟩

theorem integers_ofFn {n : ℕ} (f : Fin n → ℕ) :
    Integers ['+', '-'] (lines (List.ofFn f)) (List.ofFn fun i => (f i : Int)) := by
  have hfile : Integers ['+', '-'] ([] ++ lines (List.ofFn f)) _ :=
    Integers.of_lines (by simp) (List.ofFn f) [] (by simp)
  rw [List.map_ofFn] at hfile
  exact hfile

/-- The file that is generated holds them. -/
theorem integers_generated (w : World) (cfg : Config) :
    Integers ['+', '-'] (lines (generated w cfg.virtualAddressBits))
      (List.ofFn (randomAddresses w cfg)) :=
  integers_ofFn fun i : Fin numAddresses => w.rand i % cfg.totalVirtualMemory

/-- **The whole program with generated addresses.** When every question is
answered, after any number of wrong answers, and the files can be opened, the
program ends with status 0. It has written the addresses it drew to `input.in`
and, to the file named after the algorithm, the table of the simulation on exactly
these addresses, and no other file; line `i` of the table is read back as the row
of address `i`, the closing line as the number of faults. -/
theorem asMain_generated {rest : List Char} (hdialog : Dialog w.stdin a rest)
    (hoption : a.fileOption = 1) (hin : w.writable inputName = true)
    (hback : w.readable inputName = true) (hout : w.writable (outputName a.algorithm) = true) :
    ∃ out files m, asMain w = .exited 0 out [] files ∧
      simulate a.algorithm a.config.totalFrame a.config.totalPage a.config.pageSizeBytes
        (randomAddresses w a.config) = some m ∧
      files inputName = some (lines (generated w a.config.virtualAddressBits)) ∧
      files (outputName a.algorithm) = some (outputText m) ∧
      (∀ name, name ≠ inputName → name ≠ outputName a.algorithm →
        files name = w.files name) ∧
      (∀ i : Fin numAddresses, ∃ row, readRow i (outputText m) = some row ∧
        m.rows[(i : ℕ)]? = some row ∧ row.virtualAddress = randomAddresses w a.config i) ∧
      readTotal numAddresses (outputText m) = some (m.pageFaults : Int) := by
  obtain ⟨out, hmenu⟩ := menu_of_dialog hdialog
  have hrange := randomAddresses_inRange w a.config
  obtain ⟨m, hsim, hm⟩ := simulate_completed a.algorithm hrange
  have hrun : runMain a.config a.algorithm (lines (generated w a.config.virtualAddressBits)) =
      some (.ok m) := by
    rw [runMain_of_file le_rfl hrange (integers_generated w a.config), hsim]
    rfl
  have hpadded : padded (randomAddresses w a.config) = randomAddresses w a.config := by
    funext i
    rw [padded, dif_pos i.isLt]
  have hne : inputName ≠ outputName a.algorithm := by
    cases a.algorithm <;> decide
  let w' := w.write inputName (lines (generated w a.config.virtualAddressBits))
  have hopen : w'.openRead inputName =
      some (lines (generated w a.config.virtualAddressBits)) :=
    (if_pos hback).trans (w.files_write_self _ _)
  have hend : asMain w = .exited 0 (out ++ m.sim.stdout) []
      (w'.write (outputName a.algorithm) (outputText m)).files := by
    have hout' : w'.writable (outputName a.algorithm) = true := hout
    simp only [asMain, hmenu, runAnswers, if_pos hoption, if_pos hin]
    change (match w'.openRead inputName with
      | none => Ending.exited 1 out [cannotOpen] w'.files
      | some file => simulateFile w' a out file) = _
    rw [hopen]
    simp only [simulateFile, hrun, if_pos hout']
  obtain ⟨hrows, htotal⟩ := hm.read_back
  refine ⟨_, _, m, hend, hpadded ▸ hsim, ?_, w'.files_write_self _ _,
    fun name hname hname' => ?_, fun i => ?_, htotal⟩
  · rw [w'.files_write_of_ne hne]
    exact w.files_write_self _ _
  · rw [w'.files_write_of_ne hname']
    exact w.files_write_of_ne hname _
  · obtain ⟨row, hrow, hread⟩ := hrows i i.isLt
    refine ⟨row, hread, hrow, ?_⟩
    have haddr := congrArg (fun l => l[(i : ℕ)]?) hm.addresses
    simp only [List.getElem?_map, hrow, List.getElem?_ofFn, dif_pos i.isLt, hpadded,
      Option.map_some, Option.some.injEq] at haddr
    exact haddr

/-- Answers for LRU on the smallest machine, the first of them after a wrong one. -/
def smallWorld : World where
  stdin := ['7', ' ', '1', ' ', '1', ' ', '1', ' ', '3', ' ', '1']
  files := fun _ => none
  readable := fun _ => true
  writable := fun _ => true
  rand := fun i => i

theorem smallWorld_dialog : Dialog smallWorld.stdin ⟨1, 1, 1, 3, 1⟩ [] := by
  refine ⟨[' ', '1', ' ', '1', ' ', '3', ' ', '1'], [' ', '1', ' ', '3', ' ', '1'],
    [' ', '3', ' ', '1'], [' ', '1'], ?_, ?_, ?_, ?_, ?_⟩
  · exact ⟨1, [' ', '1', ' ', '1', ' ', '1', ' ', '3', ' ', '1'],
      .again rfl (by decide) (by decide) (.nil _), rfl, by decide, by decide,
      by decide⟩
  · exact ⟨0, _, .first, rfl, by decide, by decide, by decide⟩
  · exact ⟨0, _, .first, rfl, by decide, by decide, by decide⟩
  · exact ⟨0, _, .first, rfl, by decide, by decide, by decide⟩
  · exact ⟨0, _, .first, rfl, by decide, by decide, by decide⟩

theorem asMain_generated_smallWorld :
    ∃ out files, ∃ m : MainState 32 256 numAddresses,
      asMain smallWorld = .exited 0 out [] files ∧
      files (outputName .lru) = some (outputText m) ∧
      readTotal numAddresses (outputText m) = some (m.pageFaults : Int) := by
  obtain ⟨out, files, m, hend, -, -, htext, -, -, htotal⟩ :=
    asMain_generated smallWorld_dialog rfl rfl rfl rfl
  exact ⟨out, files, m, hend, htext, htotal⟩

end Generated

end OS2023.Paging
