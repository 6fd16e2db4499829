import Labs.Lib.Arithmetic
import Labs.Lib.Stdio
import Labs.Lib.Strtok

/-!
# The postfix calculator

`calculator` of `LAB_7/task_static_calc/src/calculator.c` with `push`, `pop`, `init_stack` and the
functions of `ops.c`. `LAB_9/task_mod_dynamic_lib` is the same program behind three calls of
`dlsym`, and goes no further when one of them fails.

The program is one over the numbers `D` of an `Arithmetic`. With `Float` for `D` it is the one that
runs, whose items are doubles: sums are rounded, and may be infinite or no number. With `ℚ` nothing is
rounded, which is how a reader of the expressions takes them. What `strtod` makes of a text is a
parameter, with the `errno` it leaves.

* A `Stack` has its `idx` items, the last one pushed in front. What the array holds behind them is
  never read.
* `parseTok` answers the operation, the new `*val` and `*type`, and what it writes to `stderr`.
* A token leaves the `switch` at its end, at the label `try_again`, or at `leave_with_disgrace`: a
  `Flow`. The label `reset` pops until a popped value compares equal to `EOS`, which is `0`: an item
  that is `-0.0` ends it too.
* `Calc` is what lives on from line to line; `val1` and `val2` are always set before they are used.
* A `Crash` is an access behind the buffer, a conversion to `int` of a number that is none, or a
  remainder that has no result: the processor traps at a division by zero and at a quotient that
  does not fit.

The prompts are left out, and so is the text around what is said: `Said.value` has the `%g` of the
number, `Said.error` the line on `stderr`.
-/

namespace Labs
namespace Calculator

open Lib

def ARRAYSIZE : Nat := 256
def BUFSIZE : Nat := 512
def SPACE : List UInt8 := ascii " "
def MINUS : UInt8 := 45
def DOT : UInt8 := 46
/-- `EOF`, stored into a `char`. -/
def EOF : UInt8 := 255
/-- End of stack. -/
def EOS {D : Type} [Arithmetic D] : D := Arithmetic.ofInt 0

inductive Crash
  | outOfBounds
  | conversion
  | remainder
deriving DecidableEq

inductive Op
  | NONE
  | FATAL_ERR
  | RESET
  | NUM
  | ADD
  | SUB
  | MUL
  | DIV
  | REM
deriving DecidableEq

/-- `Type`. -/
inductive Mode
  | INT
  | DOUBLE
deriving DecidableEq

/-- What a line makes the calculator write, apart from the prompts. -/
inductive Said
  | value (text : List UInt8)
  | invalidNumber (text : List UInt8)
  | invalidOperation
  | divisionByZero
  | remainderOfDouble
deriving DecidableEq

/-- The messages on `stderr`. -/
def Said.error : Said → Option (List UInt8)
  | .value _ => none
  | .invalidNumber text => some (ascii "error: invalid number: " ++ text ++ [NEWLINE])
  | .invalidOperation => some (ascii "error: invalid character or operation" ++ [NEWLINE])
  | .divisionByZero => some (ascii "devision by zero is not allowed.\n")
  | .remainderOfDouble =>
    some (ascii "floating-point values with remainder cannot be performed.\n")

variable {D : Type}

/-! ## 1. The stack -/

@[ext]
structure Stack (D : Type) where
  items : List D
  bounded : items.length ≤ ARRAYSIZE
deriving DecidableEq

def initStack : Stack D := ⟨[], Nat.zero_le _⟩

def Stack.idx (s : Stack D) : Nat := s.items.length

/-- A full stack drops the item. -/
def push (s : Stack D) (item : D) : Stack D :=
  if h : s.items.length < ARRAYSIZE then ⟨item :: s.items, h⟩ else s

theorem push_items {s : Stack D} {x : D} (h : s.idx < ARRAYSIZE) : (push s x).items = x :: s.items := by
  have hlt : s.items.length < ARRAYSIZE := h
  rw [push, dif_pos hlt]

theorem push_full {s : Stack D} {x : D} (h : ARRAYSIZE ≤ s.idx) : push s x = s := by
  have hge : ¬ s.items.length < ARRAYSIZE := Nat.not_lt.mpr h
  rw [push, dif_neg hge]

theorem push_idx {s : Stack D} {x : D} (h : s.idx < ARRAYSIZE) : (push s x).idx = s.idx + 1 := by
  rw [Stack.idx, push_items h]
  rfl

theorem push_pos (s : Stack D) (x : D) : 0 < (push s x).idx := by
  rcases Nat.lt_or_ge s.idx ARRAYSIZE with h | h
  · rw [push_idx h]
    exact Nat.succ_pos _
  · rw [push_full h]
    exact Nat.lt_of_lt_of_le (by decide) h

variable [Arithmetic D]

def popItems : List D → D × List D
  | [] => (EOS, [])
  | x :: xs => (x, xs)

theorem popItems_length (xs : List D) : (popItems xs).2.length ≤ xs.length := by
  cases xs with
  | nil => exact Nat.le_refl 0
  | cons x xs => exact Nat.le_succ _

def pop (s : Stack D) : D × Stack D :=
  ((popItems s.items).1, ⟨(popItems s.items).2, Nat.le_trans (popItems_length _) s.bounded⟩)

/-- `while (stack.POP() != EOS) ;` -/
def drain : List D → List D
  | [] => []
  | x :: xs => if Arithmetic.isZero x then xs else drain xs

theorem drain_length (xs : List D) : (drain xs).length ≤ xs.length := by
  induction xs with
  | nil => exact Nat.le_refl 0
  | cons x xs ih =>
    unfold drain
    split
    · exact Nat.le_succ _
    · exact Nat.le_succ_of_le ih

def Stack.reset (s : Stack D) : Stack D :=
  ⟨drain s.items, Nat.le_trans (drain_length _) s.bounded⟩

/-! ## 2. The operations -/

/-- `(int) x`. -/
def toInt (x : D) : Except Crash Int :=
  match Arithmetic.trunc x with
  | some n => if InRange32 n then .ok n else .error .conversion
  | none => .error .conversion

def remF (val1 val2 : Int) : Except Crash Int :=
  if val2 = 0 ∨ ¬ InRange32 (val1.tdiv val2) then .error .remainder else .ok (val1.tmod val2)

/-- `REM_F((int)(val1), (int) val2)`. -/
def remOf (val1 val2 : D) : Except Crash D := do
  let a ← toInt val1
  let b ← toInt val2
  let r ← remF a b
  return Arithmetic.ofInt r

/-! ## 3. `parseTok` -/

/-- The loop over the characters of a number: `*type` behind it, and whether it complained. -/
def scanNumber : Nat → Mode → List UInt8 → Mode × Bool
  | _, type, [] => (type, false)
  | dots, type, b :: buf =>
    if b = DOT then scanNumber (dots + 1) .DOUBLE buf
    else if dots > 1 ∨ (isdigit b = false ∧ b ≠ NEWLINE) then (.INT, true)
    else scanNumber dots type buf

/-- `IS_OPER`, with the operation. -/
def operOf (b : UInt8) : Option Op :=
  if b = 43 then some .ADD
  else if b = MINUS then some .SUB
  else if b = 47 then some .DIV
  else if b = 42 then some .MUL
  else if b = 37 then some .REM
  else none

structure Parsed (D : Type) where
  action : Op
  val : D
  type : Mode
  said : List Said

/-- A number, behind its sign. -/
def parseNumber (strtod : List UInt8 → D × Bool) (isNegative : Bool) (buf : List UInt8)
    (type : Mode) : Parsed D :=
  let (type, invalid) := scanNumber 0 type buf
  let said := if invalid then [.invalidNumber buf] else []
  let (val, errno) := strtod buf
  let val := if isNegative then -val else val
  if errno then ⟨.FATAL_ERR, val, .INT, said⟩ else ⟨.NUM, val, type, said⟩

/-- The first character is an operator, and nothing but the end of the line follows it. -/
def operator (buf : List UInt8) : Option Op :=
  match buf with
  | b :: rest => if rest.head? = none ∨ rest.head? = some NEWLINE then operOf b else none
  | [] => none

def startsWithDigit (buf : List UInt8) : Bool := (buf.head?.map isdigit).getD false

def parseTok (strtod : List UInt8 → D × Bool) (buf : List UInt8) (val : D) (type : Mode) :
    Parsed D :=
  let isNegative := buf.head? == some MINUS && startsWithDigit buf.tail
  let buf := if isNegative then buf.tail else buf
  if startsWithDigit buf then parseNumber strtod isNegative buf type
  else
    match operator buf with
    | some oper => ⟨oper, val, type, []⟩
    | none =>
      ⟨.RESET, val, .INT, if buf.head? = some NEWLINE then [] else [.invalidOperation]⟩

/-! ## 4. One token -/

structure Calc (D : Type) where
  stack : Stack D
  val : D
  type : Mode
deriving DecidableEq

def Calc.init : Calc D := ⟨initStack, Arithmetic.ofInt 0, .INT⟩

inductive Flow
  | next
  | tryAgain
  | disgrace
deriving DecidableEq

/-- The label `reset`. -/
def reset (c : Calc D) (said : List Said) : Flow × Calc D × List Said :=
  (.tryAgain, { c with stack := c.stack.reset }, said)

/-- `val = …` and the push of it. -/
def Calc.result (c : Calc D) (stack : Stack D) (val : D) : Flow × Calc D × List Said :=
  (.next, { c with stack := push stack val, val }, [])

/-- The cases `SUB`, `DIV` and `REM`. -/
def ordered (oper : Op) (c : Calc D) : Except Crash (Flow × Calc D × List Said) :=
  let (val2, stack) := pop c.stack
  if oper = .DIV ∧ Arithmetic.isZero val2 then .ok (reset { c with stack } [.divisionByZero])
  else if oper = .REM ∧ c.type = .DOUBLE then .ok (reset { c with stack } [.remainderOfDouble])
  else
    let (val1, stack) := pop stack
    match oper with
    | .SUB => .ok (c.result stack (val1 - val2))
    | .DIV => .ok (c.result stack (val1 / val2))
    | _ => (remOf val1 val2).map (c.result stack)

/-- The cases `ADD` and `MUL`. -/
def commuted (oper : Op) (c : Calc D) : Flow × Calc D × List Said :=
  let (val1, stack) := pop c.stack
  let (val2, stack) := pop stack
  c.result stack (if oper = .ADD then val1 + val2 else val1 * val2)

/-- The `switch`, with what `parseTok` has left in `val` and `type`. -/
def execute (oper : Op) (c : Calc D) : Except Crash (Flow × Calc D × List Said) :=
  match oper with
  | .NUM => .ok (.next, { c with stack := push c.stack c.val }, [])
  | .ADD | .MUL => .ok (commuted oper c)
  | .SUB | .DIV | .REM => ordered oper c
  | .RESET => .ok (reset c [])
  | .FATAL_ERR => .ok (.disgrace, c, [])
  | .NONE => .ok (.next, c, [])

/-- `parseTok` and the `switch`. -/
def step (strtod : List UInt8 → D × Bool) (c : Calc D) (tok : List UInt8) :
    Except Crash (Flow × Calc D × List Said) := do
  let parsed := parseTok strtod tok c.val c.type
  let (flow, c, said) ← execute parsed.action ⟨c.stack, parsed.val, parsed.type⟩
  return (flow, c, parsed.said ++ said)

/-- The loop over the tokens. -/
def tokenLoop (strtod : List UInt8 → D × Bool) : Calc D → List (List UInt8) →
    Except Crash (Flow × Calc D × List Said)
  | c, [] => .ok (.next, c, [])
  | c, tok :: toks => do
    match ← step strtod c tok with
    | (.next, c, said) =>
      let (flow, c, later) ← tokenLoop strtod c toks
      return (flow, c, said ++ later)
    | stopped => return stopped

/-! ## 5. A line, and all lines -/

/-- The end of a line that was not left early. -/
def finishLine (c : Calc D) : Calc D × List Said :=
  if c.stack.idx > 0 then
    let (val, stack) := pop c.stack
    (⟨stack, Arithmetic.ofInt 0, .INT⟩, [.value (Arithmetic.printG val)])
  else (⟨c.stack, Arithmetic.ofInt 0, .INT⟩, [])

/-- One line in `buf`; there is no `Calc` after `leave_with_disgrace`. -/
def line (strtod : List UInt8 → D × Bool) (c : Calc D) (buf : List UInt8) :
    Except Crash (Option (Calc D) × List Said) := do
  match ← tokenLoop strtod c (tokens SPACE (cstr buf)).1 with
  | (.next, c, said) =>
    let (c, last) := finishLine c
    return (some c, said ++ last)
  | (.tryAgain, c, said) => return (some c, said)
  | (.disgrace, _, said) => return (none, said)

/-- The `for` of `getLine`: the characters before the one that ends it, that one, and the input
    behind it. -/
def scanLine : Nat → List UInt8 → List UInt8 × Option UInt8 × List UInt8
  | 0, inp => ([], none, inp)
  | _ + 1, [] => ([], some EOF, [])
  | n + 1, b :: inp =>
    if b = EOF ∨ b = NEWLINE then ([], some b, inp)
    else
      let (body, stop, rest) := scanLine n inp
      (b :: body, stop, rest)

/-- The result, `buf` and the rest of the input; `buf` is as large as `size` says. -/
def getLine (buf inp : List UInt8) : Except Crash (Bool × List UInt8 × List UInt8) :=
  let (body, stop, rest) := scanLine (buf.length - 1) inp
  match stop with
  | some b =>
    if b = EOF then .ok (false, body ++ EOF :: buf.drop (body.length + 1), rest)
    else .ok (true, body ++ b :: NUL :: buf.drop (body.length + 2), rest)
  | none =>
    -- out of space: `buf[i]` is the last element, and it is older than this line
    let buf := (body ++ buf.drop body.length).set 0 NUL
    if buf.getD body.length NUL = EOF then .ok (false, buf, rest) else .error .outOfBounds

inductive Exit
  | success
  | failure
deriving DecidableEq

/-- `printf` into `buf` and `*buf = '\0'` leave a NUL at the start of `buf`, which is all that the
    next line sees of them. -/
def calculatorLoop (strtod : List UInt8 → D × Bool) : Nat → Calc D → List UInt8 → List UInt8 →
    Except Crash (Exit × List (List Said))
  | 0, _, _, _ => .ok (.success, [])
  | fuel + 1, c, buf, inp => do
    match ← getLine buf inp with
    | (false, _, _) => return (.success, [])
    | (true, buf, inp) =>
      match ← line strtod c buf with
      | (none, said) => return (.failure, [said])
      | (some c, said) =>
        let (exit, later) ← calculatorLoop strtod fuel c buf inp
        return (exit, said :: later)

/-- Every line takes at least one byte. -/
def calculator (strtod : List UInt8 → D × Bool) (inp : List UInt8) :
    Except Crash (Exit × List (List Said)) :=
  calculatorLoop strtod (inp.length + 1) Calc.init (List.replicate BUFSIZE NUL) inp

end Calculator
end Labs
