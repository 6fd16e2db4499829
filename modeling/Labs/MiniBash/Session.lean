import Labs.MiniBash.Clobber
import Labs.Pipeline.Status

/-!
# A session of the mini shell

`parse_cmd` of `LAB_14/task_pipe7/src/mini_bash.c` with what it does and returns, and `pseudo_bash`,
which calls it for every line of its input.

* `ret` of `parse_cmd` is an `act_t`, or what `exec_cmd_list` returns, kept as the same `int`. The
  label `err` of a refused command leaves it as it is.
* `Answers` is what the system says during one turn of the loop in `parse_cmd`: whether `chdir`
  succeeds, and in which directory the shell then is; and the calls of `exec_cmd_list`.
* `Shell` is what the calls change: the current directory, and what `SIGINT` does.
* A `Trouble` is an element of `argv` that no word was stored in, an access behind an array, or a
  `NULL` that is followed, by `exec_cmd_list` or by the `free` of the file names behind it. `hangs`
  is the `while` that waits for a newline at the end of the input.

`USER` is set, `gethostname` succeeds, there is memory, the input can be read, and nobody renames
the directories the shell is in. The `SIGINT` handler prints a line. What is printed is left out, but
for the directory in the prompt.
-/

namespace Labs
namespace MiniBash

open Lib
open Pipeline (Calls Parsed EXIT_SUCCESS EXIT_FAILURE)

/-! ## 1. `act_t` -/

def FAIL : Int := -1
def OK : Int := 0
def QUIT : Int := 1
def CHDIR : Int := 2

structure Answers where
  chdir : Target → Option (List UInt8)
  calls : Calls

/-- What `SIGINT` does. -/
inductive Disposition
  | handler
  | default
deriving DecidableEq

structure Shell where
  cwd : List UInt8
  sigint : Disposition
deriving DecidableEq

inductive Trouble
  | argv
  | outOfBounds
  | nullPointer
  | hangs
deriving DecidableEq

/-- One command that `parse_cmd` came to. -/
inductive Step
  | exit
  | cd (target : Target) (moved : Bool)
  | external (words : List (List UInt8))
deriving DecidableEq

structure Returned where
  ret : Int
  shell : Shell
  steps : List Step
deriving DecidableEq

/-! ## 2. `parse_cmd` -/

/-- From the counting of `|`, `<` and `>` to the label `err` and what it frees. -/
def pipeline (calls : Calls) (words : List (List UInt8)) (s : Shell) (ret : Int) :
    Except Trouble (Int × Shell) :=
  match Pipeline.parse .pipe7 words with
  | .error .outOfBounds => .error .outOfBounds
  | .error _ => .ok (ret, s)
  | .ok p =>
    -- `signal(SIGINT, SIG_DFL)` is the shell's own
    let s := { s with sigint := .default }
    match Pipeline.execCmdListRet calls p with
    | .error _ => .error .nullPointer
    | .ok (ret, _) => if p.toFrom.length < p.redirNum then .error .nullPointer else .ok (ret, s)

/-- The loop, from what `strtok` has saved on; `n` turns are done. -/
def parseLoop (home : Bool) (answers : Nat → Answers) : Nat → Nat → List UInt8 → Returned →
    Except Trouble Returned
  | 0, _, _, r => .ok r
  | fuel + 1, n, saved, r =>
    match strtok DELIMS saved with
    | (none, _) => .ok r
    | (some tok, saved) =>
      match builtin home tok with
      | .exit => .ok { r with ret := QUIT, steps := r.steps ++ [.exit] }
      | .homeMissing => .ok { r with ret := FAIL }
      | .cd target =>
        match (answers n).chdir target with
        | none =>
          parseLoop home answers fuel (n + 1) saved
            { r with ret := FAIL, steps := r.steps ++ [.cd target false] }
        | some cwd =>
          parseLoop home answers fuel (n + 1) saved
            ⟨CHDIR, { r.shell with cwd }, r.steps ++ [.cd target true]⟩
      | .external cmd =>
        let argc := argCount cmd + 1
        let (words, saved) := tokens SPACE cmd
        if words.length = argc then do
          let (ret, shell) ← pipeline (answers n).calls words r.shell r.ret
          let r : Returned := ⟨ret, shell, r.steps ++ [.external words]⟩
          if ret = FAIL then return r else parseLoop home answers fuel (n + 1) saved r
        else .error .argv

/-- `parse_cmd`. -/
def parseCmd (home : Bool) (answers : Nat → Answers) (buf : List UInt8) (s : Shell) :
    Except Trouble Returned :=
  parseLoop home answers (buf.length + 1) 0 buf ⟨OK, s, []⟩

/-! ## 3. `pseudo_bash` -/

def BUFSIZ : Nat := 8192

/-- What the `switch` makes of the code. -/
inductive Action
  | leave (ret : Int)
  | refresh
  | goOn
deriving DecidableEq

def action (ret : Int) : Action :=
  if ret = QUIT then .leave EXIT_SUCCESS
  else if ret = FAIL then .leave EXIT_FAILURE
  else if ret = CHDIR then .refresh
  else .goOn

/-- What the system says during a session, by turns of the loop in `pseudo_bash`. -/
structure World where
  home : Bool
  getcwd : Nat → Bool
  answers : Nat → Nat → Answers

/-- A prompt, and the line given to `parse_cmd` behind it, where there is one. -/
structure Prompt where
  dir : List UInt8
  shell : Shell
  read : Option (List UInt8)
deriving DecidableEq

inductive Outcome
  | left (ret : Int)
  | stopped (trouble : Trouble)
deriving DecidableEq

/-- The loop, with `n` turns done; an empty `dir` is read again. -/
def bashLoop (w : World) : Nat → Nat → List UInt8 → Shell → Int → List UInt8 →
    List Prompt × Outcome
  | 0, _, _, _, ret, _ => ([], .left ret)
  | fuel + 1, n, dir, s, ret, inp =>
    if dir = [] ∧ w.getcwd n = false then ([], .left ret)
    else
      let dir := if dir = [] then s.cwd else dir
      match fgets (BUFSIZ + 1) inp with
      | none => ([⟨dir, s, none⟩], .left ret)
      | some (buf, inp) =>
        if buf.head? = some NEWLINE then
          let (prompts, outcome) := bashLoop w fuel (n + 1) dir s ret inp
          (⟨dir, s, none⟩ :: prompts, outcome)
        else
          match memchr (cstr buf) NEWLINE with
          | none =>
            -- the line does not fit: the rest of it is discarded
            match skipLine inp with
            | none => ([⟨dir, s, none⟩], .stopped .hangs)
            | some inp =>
              let (prompts, outcome) := bashLoop w fuel (n + 1) dir s ret inp
              (⟨dir, s, none⟩ :: prompts, outcome)
          | some chp =>
            let cmds := buf.take chp
            match parseCmd w.home (w.answers n) cmds s with
            | .error trouble => ([⟨dir, s, some cmds⟩], .stopped trouble)
            | .ok r =>
              match action r.ret with
              | .leave ret => ([⟨dir, s, some cmds⟩], .left ret)
              | .refresh =>
                let (prompts, outcome) := bashLoop w fuel (n + 1) [] r.shell r.ret inp
                (⟨dir, s, some cmds⟩ :: prompts, outcome)
              | .goOn =>
                let (prompts, outcome) := bashLoop w fuel (n + 1) dir r.shell r.ret inp
                (⟨dir, s, some cmds⟩ :: prompts, outcome)

/-- `main`, started in `cwd`: every turn takes a byte of the input. -/
def pseudoBash (w : World) (cwd inp : List UInt8) : List Prompt × Outcome :=
  bashLoop w (inp.length + 1) 0 [] ⟨cwd, .handler⟩ EXIT_FAILURE inp

end MiniBash
end Labs
