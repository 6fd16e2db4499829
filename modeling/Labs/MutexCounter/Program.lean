import Labs.Lib.CInt
import Labs.Lib.Progress

/-!
# Threads that count together

`thread_increment` of `LAB_13/task_mutex_no_mutex/src`, in the three versions that use the mutex:
`thread_mutex_coarse_grained.c` takes it around the whole loop, `thread_mutex_fine_grained.c`
around every increment, and `thread_mutex_local_accum.c` counts in the local `tmp` and takes it
once to add that to the shared counter.

All threads are given the address of the `a` of `main`, so the test for a null `args` never
succeeds. A place stands before one access to `a`, one call or one test of the loop, and carries
the locals `i` and `tmp`; `++` and `+=` on `a` are a load and a store. A thread that has not been
created yet is one that takes no step.
-/

namespace Labs
namespace MutexCounter

open Lib

inductive Version
  | coarseGrained
  | fineGrained
  | localAccum

/-- `THREAD_NUM` and `INCR_MAX`. -/
structure Config where
  version : Version
  threadNum : Nat
  incrMax : Nat

/-- The counter `a` of `main`, and what the threads have printed. -/
structure Shared where
  a : Int
  printed : List Int

inductive Place
  | test (i tmp : Int)
  | lock (i tmp : Int)
  | load (i tmp : Int)
  | store (i tmp a : Int)
  | printf (i tmp : Int)
  | unlock (i tmp : Int)
  | returned
deriving DecidableEq

/-- `thread_increment` of `thread_mutex_coarse_grained.c`. -/
def CoarseGrained.threadIncrement (incrMax : Int) :
    Place → Shared → Option (Place × Shared × SemOp Unit)
  | .lock i tmp, m => some (.test i tmp, m, .wait ())
  | .test i tmp, m => some (if i < incrMax then .load i tmp else .unlock i tmp, m, .skip)
  | .load i tmp, m => some (.store i tmp m.a, m, .skip)
  | .store i tmp a, m => some (.test (wrap32 (i + 1)) tmp, { m with a := wrap64 (a + 1) }, .skip)
  | .unlock _ _, m => some (.returned, m, .post ())
  | _, _ => none

/-- `thread_increment` of `thread_mutex_fine_grained.c`. -/
def FineGrained.threadIncrement (incrMax : Int) :
    Place → Shared → Option (Place × Shared × SemOp Unit)
  | .test i tmp, m => some (if i < incrMax then .lock i tmp else .returned, m, .skip)
  | .lock i tmp, m => some (.load i tmp, m, .wait ())
  | .load i tmp, m => some (.store i tmp m.a, m, .skip)
  | .store i tmp a, m => some (.unlock i tmp, { m with a := wrap64 (a + 1) }, .skip)
  | .unlock i tmp, m => some (.test (wrap32 (i + 1)) tmp, m, .post ())
  | _, _ => none

/-- `thread_increment` of `thread_mutex_local_accum.c`. -/
def LocalAccum.threadIncrement (incrMax : Int) :
    Place → Shared → Option (Place × Shared × SemOp Unit)
  | .test i tmp, m =>
    some (if i < incrMax then .test (wrap32 (i + 1)) (wrap64 (tmp + 1)) else .lock i tmp, m, .skip)
  | .lock i tmp, m => some (.load i tmp, m, .wait ())
  | .load i tmp, m => some (.store i tmp m.a, m, .skip)
  | .store i tmp a, m => some (.printf i tmp, { m with a := wrap64 (a + tmp) }, .skip)
  | .printf i tmp, m => some (.unlock i tmp, { m with printed := m.printed ++ [m.a] }, .skip)
  | .unlock _ _, m => some (.returned, m, .post ())
  | _, _ => none

def Version.threadIncrement (v : Version) (incrMax : Int) :
    Place → Shared → Option (Place × Shared × SemOp Unit) :=
  match v with
  | .coarseGrained => CoarseGrained.threadIncrement incrMax
  | .fineGrained => FineGrained.threadIncrement incrMax
  | .localAccum => LocalAccum.threadIncrement incrMax

/-- Where `thread_increment` starts, with `i` and `tmp` at zero. -/
def Version.entry : Version → Place
  | .coarseGrained => .lock 0 0
  | .fineGrained => .test 0 0
  | .localAccum => .test 0 0

def program (c : Config) : Program (Fin c.threadNum) (fun _ => Place) Shared Unit Unit :=
  fun _ pc m _ => c.version.threadIncrement c.incrMax pc m

abbrev State (c : Config) : Type := Sys (Fin c.threadNum) (fun _ => Place) Shared Unit

def init (c : Config) : State c where
  pc := fun _ => c.version.entry
  mem := ⟨0, []⟩
  sem := fun _ => 1

def step (c : Config) : State c → Fin c.threadNum × Unit → Option (State c) :=
  Sys.step (program c)

end MutexCounter
end Labs
