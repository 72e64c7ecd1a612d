import OS2023.Lib.Buffer

/-!
# The terminal of a process

`1/newps.c` finds the terminal of a process in the link `/proc/<pid>/fd/0` and
cuts `/dev/` off its name. The code stands there twice: in `get_self_tty`, which
goes on after a failed `readlink`, and in the loop of `main`, which does not.
Both move the name to the front with a count that is ten too large, and so read
behind their buffer when the target is long.
-/

namespace OS2023.Ps

open OS2023.Lib

/-! ## The code -/

/-- A `char [256]`. -/
abbrev TtyBuffer := Buffer 256

/-- What a link can hold: a path of at most 255 bytes. A path has no NUL. -/
structure LinkTarget where
  path : List Char
  length_le : path.length ≤ 255
  clean : '\x00' ∉ path

/-- `readlink(path, buf, 255)`: the length returned and the buffer. A failure
returns `-1` and writes nothing. -/
def readlink (link : Option LinkTarget) (buf : TtyBuffer) : Option (Int × TtyBuffer) :=
  match link with
  | some target => do
      let buf ← buf.store (target.path.take 255)
      some ((target.path.take 255).length, buf)
  | none => some (-1, buf)

def dev : List Char :=
  "/dev/".toList

/-- The statements from `strstr` on, which both places share. -/
def removeDev (len : Int) (buf : TtyBuffer) : Option TtyBuffer := do
  let s ← buf.cString
  match strstr dev s with
  | some p => do
      let buf ← buf.memmove 0 ((p : Int) + 5) (len - p + 5)
      buf.write (len - 5) '\x00'
  | none => some buf

/-- `get_self_tty`. -/
def getSelfTty (link : Option LinkTarget) (ttyName : TtyBuffer) : Option TtyBuffer := do
  let (len, ttyName) ← readlink link ttyName
  -- the failure is reported, and the function goes on
  let ttyName ← ttyName.write len '\x00'
  removeDev len ttyName

/-- The terminal of a process in `main`. -/
def processTty (link : Option LinkTarget) (tty : TtyBuffer) : Option TtyBuffer := do
  let (len, tty) ← readlink link tty
  if len ≠ -1 then do
    let tty ← tty.write len '\x00'
    removeDev len tty
  else tty.strcpy ['?']

/-! ## What is to be found -/

/-- The part of a path behind its first `/dev/`, the whole path if it has none. -/
def terminalName (path : List Char) : List Char :=
  match strstr dev path with
  | some p => path.drop (p + 5)
  | none => path

/-- A place leaves a string in its buffer, and it is the name of the terminal. -/
def Leaves (link : Option LinkTarget) (result : Option TtyBuffer) : Prop :=
  ∃ buf name, result = some buf ∧ buf.cString = some name ∧
    ∀ target, link = some target → name = terminalName target.path

/-- Both places stay in their buffers and leave the same name. -/
def StaysInBuffer (link : Option LinkTarget) : Prop :=
  ∀ ttyName tty : TtyBuffer,
    Leaves link (getSelfTty link ttyName) ∧ Leaves link (processTty link tty)

/-- There is nothing to cut off, or room for what is read behind the name. -/
def ShortOrPlain (target : LinkTarget) : Prop :=
  strstr dev target.path = none ∨ target.path.length ≤ 246

/-! ## Cutting -/

variable {target : LinkTarget} {buf : TtyBuffer}

theorem take_path (target : LinkTarget) : target.path.take 255 = target.path :=
  List.take_of_length_le target.length_le

/-- The path and its terminator are in the buffer when the search begins. -/
theorem readlink_write (target : LinkTarget) (buf : TtyBuffer) :
    ∃ buf₁ buf₂, readlink (some target) buf = some ((target.path.length : Int), buf₁) ∧
      buf₁.write target.path.length '\x00' = some buf₂ ∧ Terminated buf₂ target.path := by
  obtain ⟨buf₁, buf₂, hstore, hwrite, hterm⟩ :=
    terminated_store buf (Nat.lt_succ_of_le target.length_le) target.clean
  refine ⟨buf₁, buf₂, ?_, hwrite, hterm⟩
  rw [readlink, take_path, hstore]
  rfl

theorem removeDev_of_short (h : Terminated buf target.path) (hshort : ShortOrPlain target) :
    ∃ buf', removeDev target.path.length buf = some buf' ∧
      Terminated buf' (terminalName target.path) := by
  unfold removeDev terminalName
  rw [h.cString, Option.bind_eq_bind, Option.bind_some]
  cases hdev : strstr dev target.path with
  | none => exact ⟨buf, rfl, h⟩
  | some p =>
      have hle : target.path.length ≤ 246 := hshort.resolve_left (by simp [hdev])
      have hroom : p + 5 ≤ target.path.length :=
        add_length_le_of_strstr (by decide) hdev
      obtain ⟨buf₁, hmove, hterm₁⟩ := h.memmove (k := p + 5)
        (n := target.path.length - p + 5) hroom (by omega) (by omega)
      obtain ⟨buf₂, hwrite, hterm₂⟩ := hterm₁.write (i := target.path.length - 5)
        (by rw [List.length_drop]; omega) (by omega)
      refine ⟨buf₂, ?_, hterm₂⟩
      have hsrc : ((p : ℕ) : Int) + 5 = ((p + 5 : ℕ) : Int) := rfl
      have hcount : ((target.path.length : ℕ) : Int) - p + 5 =
          ((target.path.length - p + 5 : ℕ) : Int) := by
        omega
      have hlast : ((target.path.length : ℕ) : Int) - 5 =
          ((target.path.length - 5 : ℕ) : Int) := by
        omega
      simp only [hsrc, hcount, hlast, hmove, Option.bind_eq_bind, Option.bind_some]
      exact hwrite

/-- A longer target with a `/dev/` in it is read past the end of the buffer. -/
theorem removeDev_of_long (h : Terminated buf target.path) (hlong : ¬ShortOrPlain target) :
    removeDev target.path.length buf = none := by
  unfold removeDev
  rw [h.cString, Option.bind_eq_bind, Option.bind_some]
  cases hdev : strstr dev target.path with
  | none => exact absurd (Or.inl hdev) hlong
  | some p =>
      have hlt : 246 < target.path.length := by
        rw [← Nat.not_le]
        exact fun hle => hlong (Or.inr hle)
      have hmove : buf.memmove 0 (((p : ℕ) : Int) + 5)
          (((target.path.length : ℕ) : Int) - p + 5) = none := by
        refine dif_neg ?_
        rintro ⟨-, -, -, -, hbound⟩
        omega
      simp only [hmove, Option.bind_eq_bind, Option.bind_none]

/-! ## The two places -/

theorem getSelfTty_eq (target : LinkTarget) (ttyName : TtyBuffer) :
    ∃ buf, Terminated buf target.path ∧
      getSelfTty (some target) ttyName = removeDev target.path.length buf := by
  obtain ⟨buf₁, buf₂, hread, hwrite, hterm⟩ := readlink_write target ttyName
  refine ⟨buf₂, hterm, ?_⟩
  simp only [getSelfTty, hread, hwrite, Option.bind_eq_bind, Option.bind_some]

theorem processTty_eq (target : LinkTarget) (tty : TtyBuffer) :
    ∃ buf, Terminated buf target.path ∧
      processTty (some target) tty = removeDev target.path.length buf := by
  obtain ⟨buf₁, buf₂, hread, hwrite, hterm⟩ := readlink_write target tty
  have hlen : ((target.path.length : ℕ) : Int) ≠ -1 := by omega
  refine ⟨buf₂, hterm, ?_⟩
  simp only [processTty, hread, hwrite, Option.bind_eq_bind, Option.bind_some, if_pos hlen]

/-- After a failed `readlink` the first place writes in front of its buffer. -/
theorem getSelfTty_of_failure (ttyName : TtyBuffer) : getSelfTty none ttyName = none := by
  have hwrite : Buffer.write ttyName (-1) '\x00' = none := rfl
  simp only [getSelfTty, readlink, Option.bind_eq_bind, Option.bind_some, hwrite,
    Option.bind_none]

/-- The second does not: it falls back on a question mark. -/
theorem processTty_of_failure (tty : TtyBuffer) :
    ∃ buf, processTty none tty = some buf ∧ buf.cString = some ['?'] := by
  obtain ⟨buf, hcopy, hstring⟩ := cString_strcpy tty (t := ['?']) (by decide)
  refine ⟨buf, ?_, hstring⟩
  simp only [processTty, readlink, Option.bind_eq_bind, Option.bind_some]
  rw [if_neg (by decide)]
  exact hcopy

/-- A long target takes it behind its buffer. -/
theorem getSelfTty_of_long (hlong : ¬ShortOrPlain target) (ttyName : TtyBuffer) :
    getSelfTty (some target) ttyName = none := by
  obtain ⟨buf, hterm, heq⟩ := getSelfTty_eq target ttyName
  rw [heq]
  exact removeDev_of_long hterm hlong

/-- Where the first place leaves its buffer, the law fails. -/
theorem not_staysInBuffer {link : Option LinkTarget}
    (h : ∀ ttyName, getSelfTty link ttyName = none) : ¬StaysInBuffer link := by
  intro hstays
  obtain ⟨⟨buf, name, hrun, -⟩, -⟩ := hstays (fun _ => 'x') (fun _ => 'x')
  rw [h] at hrun
  exact absurd hrun (by simp)

theorem leaves_of_short (h : Terminated buf target.path) (hshort : ShortOrPlain target) :
    Leaves (some target) (removeDev target.path.length buf) := by
  obtain ⟨buf', hrun, hterm⟩ := removeDev_of_short h hshort
  refine ⟨buf', _, hrun, hterm.cString, ?_⟩
  rintro _ ⟨rfl⟩
  rfl

/-- **The name of a terminal is found within the buffers exactly when `readlink`
succeeds and its target is short or has nothing to cut off.** -/
theorem staysInBuffer_iff (link : Option LinkTarget) :
    StaysInBuffer link ↔ ∃ target, link = some target ∧ ShortOrPlain target := by
  constructor
  · intro h
    cases link with
    | none => exact absurd h (not_staysInBuffer getSelfTty_of_failure)
    | some target =>
        refine ⟨target, rfl, ?_⟩
        by_contra hlong
        exact not_staysInBuffer (getSelfTty_of_long hlong) h
  · rintro ⟨target, rfl, hshort⟩ ttyName tty
    obtain ⟨buf₁, hterm₁, heq₁⟩ := getSelfTty_eq target ttyName
    obtain ⟨buf₂, hterm₂, heq₂⟩ := processTty_eq target tty
    rw [heq₁, heq₂]
    exact ⟨leaves_of_short hterm₁ hshort, leaves_of_short hterm₂ hshort⟩

/-- A target of 247 bytes. -/
def longTarget : LinkTarget where
  path := dev ++ List.replicate 242 'a'
  length_le := by
    rw [List.length_append, List.length_replicate]
    decide
  clean := by
    rw [List.mem_append, List.mem_replicate]
    decide

theorem not_shortOrPlain_longTarget : ¬ShortOrPlain longTarget := by
  have hdev : strstr dev longTarget.path = some 0 := rfl
  have hlength : longTarget.path.length = 247 := by
    unfold longTarget
    rw [List.length_append, List.length_replicate]
    rfl
  unfold ShortOrPlain
  rw [hdev, hlength]
  decide

/-- A closed standard input, and a long path below `/dev/`. -/
theorem not_staysInBuffer_closed : ¬StaysInBuffer none ∧ ¬StaysInBuffer (some longTarget) := by
  constructor
  · exact not_staysInBuffer getSelfTty_of_failure
  · exact not_staysInBuffer (getSelfTty_of_long not_shortOrPlain_longTarget)

end OS2023.Ps
