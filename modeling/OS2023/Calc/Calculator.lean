import OS2023.Lib.Scan
import Mathlib.Algebra.Ring.Int.Defs
import Mathlib.Algebra.Ring.Nat

/-!
# The calculator and its three system calls

The loop of `2/assignment2.c` and the system calls `plus_revert`,
`minus_revert` and `string_revert`. Input is a list of characters, one for each
byte. A C string is the list of characters in front of its first NUL. The two
arithmetic calls differ in the operator they accept and the operation they
apply, and are one definition here. Copies from and to user space succeed.
-/

namespace OS2023.Calc

open OS2023.Lib

/-! ## System calls -/

/-- The value of an integer kept in a 64-bit `long`. -/
def wrap64 (v : Int) : Int :=
  (v + 2 ^ 63) % 2 ^ 64 - 2 ^ 63

/-- The kernel's `sscanf(buffer, "%ld %c %ld", ...)`, when it converts all
three. What follows the second number is not looked at. -/
def sscanf (buffer : List Char) : Option (Int × Char × Int) :=
  match scanInt ['-'] buffer with
  | .value number₁ s =>
    match skipSpaces s with
    | [] => none
    | operation :: s =>
      match scanInt ['-'] (skipSpaces s) with
      | .value number₂ _ => some (wrap64 number₁, operation, wrap64 number₂)
      | _ => none
  | _ => none

/-- `snprintf` with `%ld`. -/
def showLong (v : Int) : List Char :=
  (toString v).toList

/-- The body shared by `sys_plus_revert` and `sys_minus_revert`: `none` is an
error return, which `syscall` turns into `-1`. -/
def arithmeticCall (sign : Char) (compute : Int → Int → Int) (buffer : List Char) :
    Option (List Char) :=
  if buffer = [] then none
  else
    match sscanf buffer with
    | some (number₁, operation, number₂) =>
      if operation = sign then some (showLong (wrap64 (compute number₁ number₂))) else none
    | none => none

def sysPlusRevert : List Char → Option (List Char) :=
  arithmeticCall '+' fun number₁ number₂ => number₁ - number₂

def sysMinusRevert : List Char → Option (List Char) :=
  arithmeticCall '-' fun number₁ number₂ => number₁ + number₂

def sysStringRevert (buffer : List Char) : Option (List Char) :=
  if buffer = [] then none else some buffer.reverse

/-! ## The program -/

/-- `isChar`: some character is no digit, space or sign. -/
def isChar (str : List Char) : Bool :=
  str.any fun c => !c.isDigit && !(c == ' ' || c == '+' || c == '-')

def isSpace (str : List Char) : Bool :=
  str.any fun c => c == ' '

inductive Answer where
  | output (text : List Char)
  | wrongInput
deriving DecidableEq

/-- `ret == 0`, with what the call has written to `output`. -/
def answerOf : Option (List Char) → Answer
  | some output => .output output
  | none => .wrongInput

/-- The body of the loop for the C string `input`; `none` is the `break` at an
empty one. -/
def respond (input : List Char) : Option Answer :=
  if input = [] then none
  else if '+' ∈ input then
    some (answerOf (if !isChar input then sysPlusRevert input else none))
  else if '-' ∈ input then
    some (answerOf (if !isChar input then sysMinusRevert input else none))
  else
    some (answerOf (if !isChar input && !isSpace input then sysStringRevert input else none))

/-- The characters that `fgets` stores when it has room for `room` of them, and
those it leaves. -/
def takeLine : ℕ → List Char → List Char × List Char
  | 0, s => ([], s)
  | _ + 1, [] => ([], [])
  | room + 1, c :: s =>
      if c = '\n' then (['\n'], s)
      else
        let (line, rest) := takeLine room s
        (c :: line, rest)

/-- `fgets(input, sizeof(input), stdin)`. -/
def fgets (stdin : List Char) : Option (List Char × List Char) :=
  if stdin = [] then none else some (takeLine 99 stdin)

/-- The string after `input[strcspn(input, "\n")] = 0`. -/
def chomp (input : List Char) : List Char :=
  input.takeWhile fun c => c != '\n' && c != '\x00'

/-- The loop. `fgets` takes at least one character, so the length of the input
bounds the turns. -/
def mainLoop : ℕ → List Char → List Answer
  | 0, _ => []
  | fuel + 1, stdin =>
      match fgets stdin with
      | none => []
      | some (input, rest) =>
        match respond (chomp input) with
        | none => []
        | some answer => answer :: mainLoop fuel rest

/-- The answers printed for the whole input. -/
def calculator (stdin : List Char) : List Answer :=
  mainLoop (stdin.length + 1) stdin

end OS2023.Calc
