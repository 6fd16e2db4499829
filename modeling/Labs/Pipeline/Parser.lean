import Labs.MiniBash.ParseCmd
import Labs.Pipeline.Spawn

/-!
# From tokens to a pipeline

The parser in front of `exec_cmd_list` and `my_pipe`: in `main` of `LAB_14/task_pipe6/src/pipe6.c`
and of `LAB_14/task_pipe5/src/pipe5.c`, where the tokens are the arguments behind `argv[0]`, and in
`parse_cmd` of `LAB_14/task_pipe7/src/mini_bash.c`, where they are the words of a command.

It makes two passes. The first counts the tokens that start with `|` and those that start with `<`
or `>`, and keeps the place of the last of each; where one of these stands at an end the command is
refused. The second has one turn for each command. A turn takes words up to the next operator, then
redirections as long as there are any; `next_cmd_idx` is all it leaves for the next turn.

* Pointers into `argv` are numbers, as `to_from[k]->cmd == cmds[i][0]` compares them.
* `cmds[i]` is `NULL` where a turn finds no word.
* `to_from` has `redir_num` elements. Those behind the last one that was set are `NULL`: `toFrom` may
  be shorter than `redirNum`.

Memory is always there. The two programs without a shell are alike here.
-/

namespace Labs
namespace Pipeline

open Lib
open MiniBash (PIPE REDIR_INPUT REDIR_OUTPUT)

/-- `*argv[j]`. -/
def first (argv : List (List UInt8)) (j : Nat) : UInt8 := (argv[j]?.getD []).headD NUL

def IsRedir (b : UInt8) : Prop := b = REDIR_INPUT ∨ b = REDIR_OUTPUT
deriving Decidable

/-- `redir_t`. -/
structure Entry where
  direct : End
  fileName : List UInt8
  cmd : Nat
deriving DecidableEq

/-- `cmd_ctx_t`, as the parser leaves it. -/
structure Parsed where
  cmds : List (Option (List (Option Nat)))
  toFrom : List Entry
  pipeNum : Nat
  redirNum : Nat
deriving DecidableEq

def Parsed.cmdNum (p : Parsed) : Nat := p.pipeNum + 1

/-- The first element of `cmds[i]`. -/
def firstOf (cmd : Option (List (Option Nat))) : Option Nat := (cmd.bind fun words => words[0]?).join

/-- `cmds[i][0]`. -/
def Parsed.firstWord (p : Parsed) (i : Nat) : Option Nat := firstOf p.cmds[i]?.join

/-- Why there is no pipeline: an error message, or an access behind an array. -/
inductive Refusal
  | pipe (pipeIdx : Int)
  | redirection (mark : UInt8)
  | outOfBounds
deriving DecidableEq

/-! ## 1. Counting -/

structure Marks where
  pipeNum : Nat
  redirNum : Nat
  pipeIdx : Int
  redirIdx : Int

def mark (i : Nat) (word : List UInt8) (m : Marks) : Marks :=
  if word.headD NUL = PIPE then { m with pipeNum := m.pipeNum + 1, pipeIdx := i }
  else if IsRedir (word.headD NUL) then { m with redirNum := m.redirNum + 1, redirIdx := i }
  else m

/-- The first `for`, from `argv[i]` on. -/
def count : Nat → List (List UInt8) → Marks → Marks
  | _, [], m => m
  | i, word :: words, m => count (i + 1) words (mark i word m)

/-- The place of the first token. -/
def Variant.start : Variant → Nat
  | .pipe7 => 0
  | .pipe6 | .pipe5 => 1

/-- What `pipe_idx` and `redir_idx` start from. -/
def Variant.noIdx : Variant → Int
  | .pipe7 => -1
  | .pipe6 | .pipe5 => 0

def marks (v : Variant) (argv : List (List UInt8)) : Marks :=
  count v.start (argv.drop v.start) ⟨0, 0, v.noIdx, v.noIdx⟩

/-- The last operator of a kind stands at an end. -/
def Misplaced (v : Variant) (argc : Nat) (idx : Int) : Prop := idx = v.start ∨ idx = argc - 1
deriving Decidable

/-! ## 2. Filling -/

/-- The `for` that counts the words of a command goes on. -/
def isWord (v : Variant) (word : List UInt8) : Bool :=
  let b := word.headD NUL
  (v != .pipe7 || b != NUL) && b != PIPE && b != REDIR_INPUT && b != REDIR_OUTPUT

/-- `arg_num`. -/
def argNum (v : Variant) (argv : List (List UInt8)) (j : Nat) : Nat :=
  ((argv.drop j).takeWhile (isWord v)).length

/-- `for (cnt_idx = j; cnt_idx > 0 && *argv[cnt_idx] != PIPE; cnt_idx--) ;` -/
def cntIdx (argv : List (List UInt8)) : Nat → Nat
  | 0 => 0
  | j + 1 => if first argv (j + 1) = PIPE then j + 1 else cntIdx argv j

/-- `to_from[k]->cmd`. -/
def owner (v : Variant) (argv : List (List UInt8)) (j : Nat) : Nat :=
  let i := cntIdx argv j
  match v with
  | .pipe7 => if first argv i = PIPE then i + 1 else i
  | .pipe6 | .pipe5 => i + 1

/-- The `while` over the redirections of a command, which leaves `j`. -/
def redirLoop (v : Variant) (argv : List (List UInt8)) (redirNum : Nat) :
    Nat → Nat → List Entry → Except Refusal (Nat × List Entry)
  | 0, j, toFrom => .ok (j, toFrom)
  | fuel + 1, j, toFrom =>
    if j < argv.length ∧ IsRedir (first argv j) then
      match argv[j + 1]? with
      | none => .error .outOfBounds
      | some fileName =>
        if toFrom.length < redirNum then
          let direct := if first argv j = REDIR_OUTPUT then .WRITE else .READ
          let entry : Entry := { direct, fileName, cmd := owner v argv j }
          redirLoop v argv redirNum fuel (j + 2) (toFrom ++ [entry])
        else .error .outOfBounds
    else .ok (j, toFrom)

structure Cursor where
  nextCmdIdx : Nat
  cmds : List (Option (List (Option Nat)))
  toFrom : List Entry

/-- `j` at the start of a turn, of `next_cmd_idx`. -/
def Variant.cmdStart : Variant → Nat → Nat
  | .pipe7, next => next
  | .pipe6, next | .pipe5, next => next + 1

/-- `next_cmd_idx` behind an operator, of `j`. -/
def Variant.nextCmd : Variant → Nat → Nat
  | .pipe7, j => j + 1
  | .pipe6, j | .pipe5, j => j

/-- `cmds[i]`: `arg_num` pointers and a `NULL`. -/
def command (start n : Nat) : Option (List (Option Nat)) :=
  if n > 0 then some ((List.range' start n).map some ++ [none]) else none

/-- One turn of the outer `for`. -/
def turn (v : Variant) (argv : List (List UInt8)) (redirNum : Nat) (s : Cursor) :
    Except Refusal Cursor := do
  let start := v.cmdStart s.nextCmdIdx
  let n := argNum v argv start
  let cmds := s.cmds ++ [command start n]
  let j := start + n
  if j < argv.length ∧ (first argv j = PIPE ∨ IsRedir (first argv j)) then
    let (j, toFrom) ← redirLoop v argv redirNum argv.length j s.toFrom
    return ⟨v.nextCmd j, cmds, toFrom⟩
  else return ⟨start, cmds, s.toFrom⟩

def turns (v : Variant) (argv : List (List UInt8)) (redirNum : Nat) :
    Nat → Cursor → Except Refusal Cursor
  | 0, s => .ok s
  | n + 1, s => do turns v argv redirNum n (← turn v argv redirNum s)

/-- `main`, and `parse_cmd` on the words of a command, up to the call of `exec_cmd_list`. -/
def parse (v : Variant) (argv : List (List UInt8)) : Except Refusal Parsed := do
  let m := marks v argv
  if Misplaced v argv.length m.pipeIdx then throw (.pipe m.pipeIdx)
  if Misplaced v argv.length m.redirIdx then throw (.redirection (first argv m.redirIdx.toNat))
  let s ← turns v argv m.redirNum (m.pipeNum + 1) ⟨0, [], []⟩
  return ⟨s.cmds, s.toFrom, m.pipeNum, m.redirNum⟩

end Pipeline
end Labs
