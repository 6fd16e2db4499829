import Labs.Lib.CInt
import Labs.Lib.Progress

/-!
# Threads that count without a mutex

`thread_increment` of `LAB_13/task_mutex_no_mutex/src`, in the versions that use no mutex.
`thread_partial_overwrite.c` loads the shared counter in every round of its loop, and so do
`thread_no_printf_as_sync_point.c`, `thread_overwrite_tmp_ptr.c` and
`thread_force_context_switch.c`, which do not print it. `thread_total_overwrite.c` loads it once,
before the loop.

A place stands before one access to `a` or one test of the loop, and carries the locals `i` and
`tmp`. The accesses take effect one after another, in any order that the threads get them done in.
-/

namespace Labs
namespace RacingCounter

open Lib

inductive Version
  | partialOverwrite
  | noPrintf
  | totalOverwrite
deriving DecidableEq

/-- `THREAD_NUM` and `INCR_MAX`. -/
structure Config where
  version : Version
  threadNum : Nat
  incrMax : Nat

/-- The counter `a` of `main`, and what the threads have printed. -/
structure Shared where
  a : Int
  printed : List Int

inductive Place
  | test (i tmp : Int)
  | load (i tmp : Int)
  | store (i tmp : Int)
  | printf (i tmp : Int)
  | returned
deriving DecidableEq

/-- `thread_increment` of `thread_partial_overwrite.c`. -/
def PartialOverwrite.threadIncrement (incrMax : Int) :
    Place → Shared → Option (Place × Shared × SemOp Empty)
  | .test i tmp, m => some (if i < incrMax then .load i tmp else .returned, m, .skip)
  | .load i _, m => some (.store i m.a, m, .skip)
  | .store i tmp, m => some (.printf i (wrap64 (tmp + 1)), { m with a := wrap64 (tmp + 1) }, .skip)
  | .printf i tmp, m =>
    some (.test (wrap32 (i + 1)) tmp, { m with printed := m.printed ++ [m.a] }, .skip)
  | .returned, _ => none

/-- `thread_increment` of the three files that print nothing. -/
def NoPrintf.threadIncrement (incrMax : Int) :
    Place → Shared → Option (Place × Shared × SemOp Empty)
  | .test i tmp, m => some (if i < incrMax then .load i tmp else .returned, m, .skip)
  | .load i _, m => some (.store i m.a, m, .skip)
  | .store i tmp, m =>
    some (.test (wrap32 (i + 1)) (wrap64 (tmp + 1)), { m with a := wrap64 (tmp + 1) }, .skip)
  | _, _ => none

/-- `thread_increment` of `thread_total_overwrite.c`. -/
def TotalOverwrite.threadIncrement (incrMax : Int) :
    Place → Shared → Option (Place × Shared × SemOp Empty)
  | .load i _, m => some (.test i m.a, m, .skip)
  | .test i tmp, m => some (if i < incrMax then .store i tmp else .returned, m, .skip)
  | .store i tmp, m => some (.printf i (wrap64 (tmp + 1)), { m with a := wrap64 (tmp + 1) }, .skip)
  | .printf i tmp, m =>
    some (.test (wrap32 (i + 1)) tmp, { m with printed := m.printed ++ [m.a] }, .skip)
  | .returned, _ => none

def Version.threadIncrement (v : Version) (incrMax : Int) :
    Place → Shared → Option (Place × Shared × SemOp Empty) :=
  match v with
  | .partialOverwrite => PartialOverwrite.threadIncrement incrMax
  | .noPrintf => NoPrintf.threadIncrement incrMax
  | .totalOverwrite => TotalOverwrite.threadIncrement incrMax

/-- Where `thread_increment` starts, with `i` and `tmp` at zero. -/
def Version.entry : Version → Place
  | .partialOverwrite => .test 0 0
  | .noPrintf => .test 0 0
  | .totalOverwrite => .load 0 0

def program (c : Config) : Program (Fin c.threadNum) (fun _ => Place) Shared Empty Unit :=
  fun _ pc m _ => c.version.threadIncrement c.incrMax pc m

abbrev State (c : Config) : Type := Sys (Fin c.threadNum) (fun _ => Place) Shared Empty

def init (c : Config) : State c where
  pc := fun _ => c.version.entry
  mem := ⟨0, []⟩
  sem := fun _ => 1

def step (c : Config) : State c → Fin c.threadNum × Unit → Option (State c) :=
  Sys.step (program c)

/-- `v` is what `main` can find in `a` after it has joined all threads. -/
def FinalValue (c : Config) (v : Int) : Prop :=
  ∃ s, Reaches (step c) (fun _ _ => True) (init c) s ∧ (∀ p, s.pc p = .returned) ∧ s.mem.a = v

end RacingCounter
end Labs
