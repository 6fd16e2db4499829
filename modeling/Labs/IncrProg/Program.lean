import Labs.Lib.CInt
import Labs.Lib.Progress

/-!
# The shared counter

`incr_subroutine` of `LAB_16/task_system_v_semaphores_1/src/incr_prog.c` and of
`LAB_16/task_posix_semaphores_1/src/incr_prog_posix.c`, as a program over the shared segment and
its semaphore. The parent has set both up before the first `fork`.

A place stands before one access to the segment or one call, and carries what the process has in
its registers. `printf` reads the counter once more when it announces it: `announced` is what the
processes have printed, in order. The versions differ in how a process gets at the segment and at
the semaphore, and in what becomes of a semaphore whose release fails.
-/

namespace Labs
namespace IncrProg

open Lib

inductive Version
  | systemV
  | posix

/-- What the options of the command line fix. -/
structure Config where
  version : Version
  procNum : Nat
  incrNum : Int
  procPos : 0 < procNum
  incrOk : 0 < incrNum ∧ incrNum ≤ INT_MAX

/-- `incr_val[INCR_IDX]` and `incr_val[CAP_IDX]`, and what has been printed. -/
structure Shared where
  incr : Int
  cap : Int
  announced : List Int

/-- Whether a call fails. -/
inductive Event
  | ok
  | fail
deriving DecidableEq

inductive Place
  | shmat
  | shmOpen
  | mmap
  | semOpen
  | lock
  | loadIncr
  | testLess (incr : Int)
  | load
  | store (incr : Int)
  | announce
  | loadEnd
  | testReached (incr : Int)
  | unlock (reached : Bool)
  | exited
deriving DecidableEq

/-- What the end of a process does to the semaphore that it has not released. -/
def Version.undo : Version → SemOp Unit
  | .systemV => .post ()
  | .posix => .leave ()

def incrSubroutine (v : Version) : Place → Shared → Event → Option (Place × Shared × SemOp Unit)
  | .shmat, m, .ok => some (.lock, m, .skip)
  | .shmat, m, .fail => some (.exited, m, .skip)
  | .shmOpen, m, .ok => some (.mmap, m, .skip)
  | .shmOpen, m, .fail => some (.exited, m, .skip)
  | .mmap, m, .ok => some (.semOpen, m, .skip)
  | .mmap, m, .fail => some (.exited, m, .skip)
  | .semOpen, m, .ok => some (.lock, m, .skip)
  | .semOpen, m, .fail => some (.exited, m, .skip)
  | .lock, m, .ok => some (.loadIncr, m, .wait ())
  | .lock, m, .fail => some (.exited, m, .skip)
  | .loadIncr, m, .ok => some (.testLess m.incr, m, .skip)
  | .testLess incr, m, .ok => some (if incr < m.cap then .load else .loadEnd, m, .skip)
  | .load, m, .ok => some (.store m.incr, m, .skip)
  | .store incr, m, .ok => some (.announce, { m with incr := wrap32 (incr + 1) }, .skip)
  | .announce, m, .ok => some (.loadEnd, { m with announced := m.announced ++ [m.incr] }, .skip)
  | .loadEnd, m, .ok => some (.testReached m.incr, m, .skip)
  | .testReached incr, m, .ok => some (.unlock (decide (m.cap ≤ incr)), m, .skip)
  | .unlock reached, m, .ok => some (if reached then .exited else .lock, m, .post ())
  | .unlock _, m, .fail => some (.exited, m, v.undo)
  | _, _, _ => none

def program (c : Config) : Program (Fin c.procNum) (fun _ => Place) Shared Unit Event :=
  fun _ => incrSubroutine c.version

abbrev State (c : Config) : Type := Sys (Fin c.procNum) (fun _ => Place) Shared Unit

def Version.entry : Version → Place
  | .systemV => .shmat
  | .posix => .shmOpen

def init (c : Config) : State c where
  pc := fun _ => c.version.entry
  mem := ⟨0, c.incrNum, []⟩
  sem := fun _ => 1

def step (c : Config) : State c → Fin c.procNum × Event → Option (State c) := Sys.step (program c)

end IncrProg
end Labs
