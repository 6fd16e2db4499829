import Labs.Lib.Descriptors

/-!
# Spawning a pipeline

`exec_cmd_list` of `LAB_14/task_pipe7/src/mini_bash.c` and of `LAB_14/task_pipe6/src/pipe6.c`, and
`my_pipe` of `LAB_14/task_pipe5/src/pipe5.c`, up to the end of the loop that forks the commands.
The three share the loop; a `Variant` has what differs: what the child does to its descriptors
before `execvp`, what the parent does to its index of redirections afterwards, and whether the
parent looks at `prev_pipe_idx < pipe_num` before it closes a read end.

* A child starts from the descriptors and the `pipe_list` its parent had at `fork`. It ends at
  `execvp`, as a `Proc`, or with an `Exit`. `opened` is what it opened and how.
* `to_from[k]->cmd == cmds[i][0]` compares pointers to the first words of two commands; they are
  equal when the redirection was written behind command `i`, and `cmd` is that number.
* `pipe_idx` and `prev_pipe_idx` are `i` and its predecessor where there are pipes, and `0` where
  there are none.

A failing `pipe` or `fork` ends the loop. `dup2` and `close` fail on a descriptor that is not
open; the parent ignores what its `close` returns, a child exits.
-/

namespace Labs
namespace Pipeline

open Lib

/-- `READ` and `WRITE`, the index into a pipe and the number of the standard descriptor. -/
inductive End
  | READ
  | WRITE
deriving DecidableEq

def End.fileno : End → Nat
  | .READ => 0
  | .WRITE => 1

/-- `redir_t`. -/
structure Redir where
  cmd : Nat
  direct : End
  fileName : List UInt8
deriving DecidableEq

/-- The flags of `open`: `O_RDONLY`, or `O_CREAT | O_WRONLY | O_TRUNC`. -/
inductive Mode
  | RDONLY
  | CREAT_TRUNC
deriving DecidableEq

/-- What a descriptor refers to. -/
inductive Desc
  | inherited (fd : Nat)
  | pipeEnd (k : Nat) (e : End)
  | file (name : List UInt8) (mode : Mode)
deriving DecidableEq

/-- One `int[2]` of `pipe_list`. -/
structure Ends where
  read : Fd
  write : Fd

def Ends.at (p : Ends) : End → Fd
  | .READ => p.read
  | .WRITE => p.write

/-- `cmd_ctx_t` without the arrays the loop fills; `cmd_num` is `pipe_num + 1`. -/
structure CmdCtx where
  cmds : Nat → List (List UInt8)
  toFrom : List Redir
  pipeNum : Nat

def CmdCtx.cmdNum (ctx : CmdCtx) : Nat := ctx.pipeNum + 1

def CmdCtx.redirNum (ctx : CmdCtx) : Nat := ctx.toFrom.length

/-- `k < redir_num && to_from[k]->cmd == cmds[i][0]`, with the redirection. -/
def CmdCtx.attached (ctx : CmdCtx) (k i : Nat) : Option Redir :=
  ctx.toFrom[k]?.filter fun d => d.cmd == i

/-- What the system answers. -/
structure Sys where
  alloc : Alloc Desc
  pipeOk : Nat → Bool
  forkOk : Nat → Bool
  openOk : Nat → Redir → Bool

/-- A system on which no call fails. -/
def Sys.ok (alloc : Alloc Desc) : Sys := ⟨alloc, fun _ => true, fun _ => true, fun _ _ => true⟩

/-! ## 1. The child -/

inductive Exit
  | failure
  | outOfBounds
deriving DecidableEq

structure Proc where
  fds : Table Desc
  opened : List (Redir × Mode)

/-- The parent's variables that the loop changes. -/
structure Shell where
  fds : Table Desc
  pipeList : Nat → Ends
  pipeIdx : Nat
  redirIdx : Nat

def Shell.prevPipeIdx (s : Shell) : Nat := s.pipeIdx - 1

def dup2 (p : Proc) (old : Fd) (new : Nat) : Except Exit Proc :=
  match p.fds.dup2 old new with
  | none => .error .failure
  | some fds => .ok { p with fds }

def close (p : Proc) (fd : Fd) : Except Exit Proc :=
  match p.fds.close fd with
  | none => .error .failure
  | some fds => .ok { p with fds }

/-- `open` of a redirection's file, and `dup2` of it onto the standard descriptor. -/
def openRedir (sys : Sys) (i : Nat) (p : Proc) (d : Redir) (mode : Mode) : Except Exit Proc :=
  if sys.openOk i d = false then .error .failure
  else
    let (fd, fds) := sys.alloc.openFile p.fds (.file d.fileName mode)
    dup2 { fds, opened := p.opened ++ [(d, mode)] } (some fd) d.direct.fileno

def modeOf : End → Mode
  | .READ => .RDONLY
  | .WRITE => .CREAT_TRUNC

/-- `end`. -/
def pipeSide (s : Shell) : End := if s.pipeIdx > 0 then .READ else .WRITE

def Middle (ctx : CmdCtx) (s : Shell) : Prop := s.pipeIdx > 0 ∧ s.pipeIdx < ctx.pipeNum
deriving Decidable

/-- `fd > 0`. -/
def Fd.positive (fd : Fd) : Prop := 0 < fd.getD 0
deriving Decidable

/-- The `dup2` of a middle command's write end. -/
def dupMiddle (ctx : CmdCtx) (s : Shell) (p : Proc) : Except Exit Proc :=
  if Middle ctx s then dup2 p (s.pipeList s.pipeIdx).write 1 else .ok p

/-- `pipe_list[prev_pipe_idx][WRITE]`, unless the parent had closed it before. -/
def closePrevWrite (ctx : CmdCtx) (s : Shell) (p : Proc) : Except Exit Proc :=
  let fd := (s.pipeList s.prevPipeIdx).write
  if ctx.pipeNum > 0 ∧ Fd.positive fd then close p fd else .ok p

def closePrevRead (ctx : CmdCtx) (s : Shell) (p : Proc) : Except Exit Proc :=
  if ctx.pipeNum > 0 then close p (s.pipeList s.prevPipeIdx).read else .ok p

/-- Both ends of the pipe a middle command writes to. -/
def closeOwn (ctx : CmdCtx) (s : Shell) (p : Proc) : Except Exit Proc :=
  if Middle ctx s then do
    let p ← close p (s.pipeList s.pipeIdx).write
    close p (s.pipeList s.pipeIdx).read
  else .ok p

/-- The calls of `close` before `execvp`. -/
def closeEnds (ctx : CmdCtx) (s : Shell) (p : Proc) : Except Exit Proc := do
  let p ← closePrevWrite ctx s p
  let p ← closePrevRead ctx s p
  closeOwn ctx s p

/-- `exec_cmd_list`, the first `dup2`. -/
def dupPrev (ctx : CmdCtx) (s : Shell) (p : Proc) : Except Exit Proc :=
  let fd := (s.pipeList s.prevPipeIdx).at (pipeSide s)
  if ctx.pipeNum > 0 ∧ Fd.positive fd then dup2 p fd (pipeSide s).fileno else .ok p

/-- `exec_cmd_list`, the first block of redirections. -/
def redirFirst (sys : Sys) (ctx : CmdCtx) (i k : Nat) (p : Proc) : Except Exit (Proc × Nat) :=
  match ctx.attached k i with
  | none => .ok (p, k)
  | some d => do return (← openRedir sys i p d (modeOf d.direct), k + 1)

/-- `exec_cmd_list`, the second block: it opens for writing in either direction. -/
def redirSecond (sys : Sys) (ctx : CmdCtx) (i k : Nat) (p : Proc) : Except Exit Proc :=
  if k > 0 then
    match ctx.attached k i with
    | none => .ok p
    | some d => openRedir sys i p d .CREAT_TRUNC
  else .ok p

/-- The child section of `exec_cmd_list`. -/
def childExec (sys : Sys) (ctx : CmdCtx) (i : Nat) (s : Shell) : Except Exit Proc :=
  if ctx.pipeNum > 0 ∨ ctx.redirNum > 0 then do
    let p ← dupPrev ctx s ⟨s.fds, []⟩
    -- one redirection comes between the two pipe ends, the other behind them
    let (p, k) ← redirFirst sys ctx i s.redirIdx p
    let p ← dupMiddle ctx s p
    let p ← redirSecond sys ctx i k p
    closeEnds ctx s p
  else .ok ⟨s.fds, []⟩

/-- `my_pipe`, the loop over the redirections of command `i`; `fd` has two elements. -/
def redirWhile (sys : Sys) (ctx : CmdCtx) (i : Nat) : Nat → Nat → Nat → Proc → Except Exit Proc
  | 0, _, _, p => .ok p
  | fuel + 1, l, fdIdx, p =>
    match ctx.attached l i with
    | none => .ok p
    | some d =>
      if fdIdx < 2 then do
        let p ← openRedir sys i p d (modeOf d.direct)
        redirWhile sys ctx i fuel (l + 1) (fdIdx + 1) p
      else .error .outOfBounds

/-- `my_pipe`: the pipe ends, where there are any. -/
def childPipes (ctx : CmdCtx) (s : Shell) (p : Proc) : Except Exit Proc :=
  if ctx.pipeNum > 0 then do
    let p ← dup2 p ((s.pipeList s.prevPipeIdx).at (pipeSide s)) (pipeSide s).fileno
    let p ← dupMiddle ctx s p
    closeEnds ctx s p
  else .ok p

/-- The child section of `my_pipe`. -/
def childPipe (sys : Sys) (ctx : CmdCtx) (i : Nat) (s : Shell) : Except Exit Proc := do
  let p ← childPipes ctx s ⟨s.fds, []⟩
  redirWhile sys ctx i ctx.redirNum s.redirIdx 0 p

/-! ## 2. The parent -/

inductive Variant
  | pipe7
  | pipe6
  | pipe5
deriving DecidableEq

def Variant.child : Variant → Sys → CmdCtx → Nat → Shell → Except Exit Proc
  | .pipe7 | .pipe6 => childExec
  | .pipe5 => childPipe

/-- `exec_cmd_list`: `redir_idx` behind command `i`. -/
def nextRedir (ctx : CmdCtx) (k i : Nat) : Nat :=
  if k < ctx.redirNum then
    let k := if (ctx.attached k i).isSome then k + 1 else k
    if (ctx.attached (k + 1) i).isSome then k + 1 else k
  else k

def Variant.nextRedir : Variant → CmdCtx → Nat → Nat → Nat
  | .pipe7, ctx, k, i | .pipe6, ctx, k, i => Pipeline.nextRedir ctx k i
  | .pipe5, ctx, l, i => if (ctx.attached l i).isSome then l + 1 else l

/-- The condition under which the parent closes the read end of the pipe before. -/
def Variant.closesPrev (v : Variant) (ctx : CmdCtx) (s : Shell) : Prop :=
  s.pipeIdx > 0 ∧ (v = .pipe7 → s.prevPipeIdx < ctx.pipeNum)
deriving Decidable

/-- `(void)close(fd)`. -/
def closeAnyway (t : Table Desc) (fd : Fd) : Table Desc := (t.close fd).getD t

/-- `pipe(pipe_list[pipe_idx])`, where a pipe is needed; `none` when it fails. -/
def makePipe (sys : Sys) (ctx : CmdCtx) (s : Shell) : Option Shell :=
  if s.pipeIdx < ctx.pipeNum then
    if sys.pipeOk s.pipeIdx = false then none
    else
      let (r, fds) := sys.alloc.openFile s.fds (.pipeEnd s.pipeIdx .READ)
      let (w, fds) := sys.alloc.openFile fds (.pipeEnd s.pipeIdx .WRITE)
      some { s with fds, pipeList := Function.update s.pipeList s.pipeIdx ⟨some r, some w⟩ }
  else some s

def closeWrite (ctx : CmdCtx) (s : Shell) : Shell :=
  if s.pipeIdx < ctx.pipeNum then
    let p := s.pipeList s.pipeIdx
    { s with
      fds := closeAnyway s.fds p.write
      pipeList := Function.update s.pipeList s.pipeIdx { p with write := none } }
  else s

def closePrev (v : Variant) (ctx : CmdCtx) (s : Shell) : Shell :=
  if v.closesPrev ctx s then
    let p := s.pipeList s.prevPipeIdx
    { s with
      fds := closeAnyway s.fds p.read
      pipeList := Function.update s.pipeList s.prevPipeIdx { p with read := none } }
  else s

/-- The parent, behind the child section. -/
def parentPass (v : Variant) (ctx : CmdCtx) (i : Nat) (s : Shell) : Shell :=
  let s' :=
    if ctx.pipeNum > 0 then
      let s := closePrev v ctx (closeWrite ctx s)
      { s with pipeIdx := s.pipeIdx + 1 }
    else s
  { s' with redirIdx := v.nextRedir ctx s.redirIdx i }

inductive Failure
  | pipe
  | fork
deriving DecidableEq

/-- The children that were forked, the parent behind the loop, and why it broke off. -/
structure Spawned where
  children : List (Except Exit Proc)
  parent : Shell
  failed : Option Failure

/-- `m` more passes of the loop, from command `i` on. -/
def spawn (v : Variant) (sys : Sys) (ctx : CmdCtx) : Nat → Nat → Shell → Spawned
  | 0, _, s => ⟨[], s, none⟩
  | m + 1, i, s =>
    match makePipe sys ctx s with
    | none => ⟨[], s, some .pipe⟩
    | some s =>
      if sys.forkOk i = false then ⟨[], s, some .fork⟩
      else
        let r := spawn v sys ctx m (i + 1) (parentPass v ctx i s)
        { r with children := v.child sys ctx i s :: r.children }

/-- `pipe_list` comes zeroed from `calloc`. -/
def Shell.start (fds : Table Desc) : Shell :=
  { fds, pipeList := fun _ => ⟨some 0, some 0⟩, pipeIdx := 0, redirIdx := 0 }

/-- The descriptors of a process before it makes any pipe. -/
structure Origin where
  fds : Table Desc
  inherited : ∀ fd d, fds.get fd = some d → d = .inherited fd

/-- `exec_cmd_list` or `my_pipe`, called with the descriptors of `o`. -/
def execCmdList (v : Variant) (sys : Sys) (ctx : CmdCtx) (o : Origin) : Spawned :=
  spawn v sys ctx ctx.cmdNum 0 (.start o.fds)

end Pipeline
end Labs
