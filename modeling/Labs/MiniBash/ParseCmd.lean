import Labs.Lib.Stdio
import Labs.Lib.Strtok

/-!
# Splitting an input line into commands

`parse_cmd` of `LAB_12/task_mini_bash/src/mini_bash.c` and of `LAB_14/task_pipe7/src/mini_bash.c`: the
outer loop of `strtok` over the separators, the builtins, and the inner loop of `strtok` that
splits an external command into its words. A line is the bytes of a C string.

The two differ in where the inner loop runs. In `LAB_12` it runs in the child, on the child's copy
of what `strtok` has saved; in `LAB_14` it runs in the shell, and the next turn of the outer loop
goes on from what the inner one left.

* `Builtin` is what the `if` chain makes of one command, the same in both.
* An `Event` is a `chdir`, an external command with its words, or the `exit` that ends the line.
* In `LAB_14` the words are stored into an array of `arg_count + 1` elements, all of which are then
  looked at. With more words the array overflows, with fewer a `NULL` is dereferenced: `crashed`.
  In `LAB_12` the array has one element more, for the `NULL` that `execvp` needs; where that one is
  missing it is the child that leaves its array, the event `overflow`, and the shell goes on.

Memory is always there, and `fork` does not fail. A command of `LAB_14` in which a word starts with
an operator goes on to the pipeline parser, as the event `operators`. The `Ending` is how the outer
loop is left; the value returned also depends on what the commands did.
-/

namespace Labs
namespace MiniBash

open Lib

def DELIMS : List UInt8 := ascii ";&&"
def SPACE : List UInt8 := ascii " "
def PIPE : UInt8 := 124
def REDIR_INPUT : UInt8 := 60
def REDIR_OUTPUT : UInt8 := 62
def TAB : UInt8 := 9

/-- The argument of `chdir`. -/
inductive Target
  | home
  | dir (name : List UInt8)
deriving DecidableEq

inductive Event
  | cd (target : Target)
  | exec (words : List (List UInt8))
  | overflow (words : List (List UInt8))
  | operators (words : List (List UInt8))
  | exit
deriving DecidableEq

inductive Ending
  | finished
  | quit
  | fail
  | crashed
deriving DecidableEq

abbrev Run := List Event × Ending

def Run.before (e : Event) (r : Run) : Run := (e :: r.1, r.2)

/-! ## 1. One command -/

inductive Builtin
  | exit
  | cd (target : Target)
  | homeMissing
  | external (cmd : List UInt8)
deriving DecidableEq

/-- The label `home`. -/
def goHome (home : Bool) : Builtin := if home then .cd .home else .homeMissing

/-- The `if` chain, for one token of the outer loop; `home` says that `HOME` is set. -/
def builtin (home : Bool) (tok : List UInt8) : Builtin :=
  let tok := tok.dropWhile isspace
  if tok = ascii "exit" then .exit
  else if tok.take 2 = ascii "cd" then
    let arg := tok.drop 2
    if arg = [] then goHome home
    else
      let arg := arg.dropWhile isspace
      if arg = [] then goHome home else .cd (.dir (arg.takeWhile fun b => !isspace b))
  else .external tok

/-- The second `while` of `arg_count`. -/
def countFrom : Nat → List UInt8 → Nat
  | 0, _ => 0
  | _ + 1, [] => 0
  | fuel + 1, b :: buf =>
    if isspace b then
      match buf.dropWhile isspace with
      | [] => 0
      | _ :: buf => countFrom fuel buf + 1
    else countFrom fuel buf

/-- `arg_count`, and `smart_space_cnt` of `LAB_12`. -/
def argCount (buf : List UInt8) : Nat := countFrom buf.length (buf.dropWhile isspace)

def smartSpaceCnt (buf : List UInt8) : Nat := argCount buf

/-! ## 2. `LAB_12` -/

/-- The child section. -/
def childEvent (cmd : List UInt8) : Event :=
  let argNum := smartSpaceCnt cmd + 1
  let words := (tokens SPACE cmd).1
  if words.length < argNum + 1 then .exec words else .overflow words

/-- The outer loop of `LAB_12`, from what `strtok` has saved on. -/
def loop12 (home : Bool) : Nat → List UInt8 → Run
  | 0, _ => ([], .finished)
  | fuel + 1, saved =>
    match strtok DELIMS saved with
    | (none, _) => ([], .finished)
    | (some tok, saved) =>
      match builtin home tok with
      | .exit => ([.exit], .quit)
      | .homeMissing => ([], .fail)
      | .cd target => (loop12 home fuel saved).before (.cd target)
      | .external cmd => (loop12 home fuel saved).before (childEvent cmd)

/-- `parse_cmd` of `LAB_12`. -/
def parseCmd12 (home : Bool) (buf : List UInt8) : Run := loop12 home (buf.length + 1) buf

/-! ## 3. `LAB_14` -/

def isOperator (word : List UInt8) : Bool :=
  word.head? == some PIPE || word.head? == some REDIR_INPUT || word.head? == some REDIR_OUTPUT

/-- What becomes of an external command whose words are in `argv`. -/
def commandOf (words : List (List UInt8)) : Event :=
  if words.any isOperator then .operators words else .exec words

/-- The outer loop of `LAB_14`, from what `strtok` has saved on. -/
def loop14 (home : Bool) : Nat → List UInt8 → Run
  | 0, _ => ([], .finished)
  | fuel + 1, saved =>
    match strtok DELIMS saved with
    | (none, _) => ([], .finished)
    | (some tok, saved) =>
      match builtin home tok with
      | .exit => ([.exit], .quit)
      | .homeMissing => ([], .fail)
      | .cd target => (loop14 home fuel saved).before (.cd target)
      | .external cmd =>
        let argc := argCount cmd + 1
        -- the inner `strtok` leaves its own place for the outer one
        let (words, saved) := tokens SPACE cmd
        if words.length = argc then (loop14 home fuel saved).before (commandOf words)
        else ([], .crashed)

/-- `parse_cmd` of `LAB_14/task_pipe7`. -/
def parseCmd14 (home : Bool) (buf : List UInt8) : Run := loop14 home (buf.length + 1) buf

end MiniBash
end Labs
