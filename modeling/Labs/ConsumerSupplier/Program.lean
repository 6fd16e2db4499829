import Labs.Lib.CInt
import Labs.Lib.Processes

/-!
# Consumers and suppliers

`consume` and `supply` of `LAB_16/task_system_v_semaphores_2/src/consumer_supplier.c` and of
`LAB_16/task_posix_semaphores_2/src/consumer_supplier.c`, as programs over the shared segment and
the semaphores. The segment is set up before the first `fork`.

A place of a program stands before one access to the segment or one call, and carries what the
process has in its registers: every load and every store of `dem_unit`, `sup_unit` and `jobs` is a
step of its own. The reads of the `printf` calls, which only show what they read, are left out, and
so are the pauses.

The two versions share the places. What they do not share:

* System V attaches the segment first, POSIX inherits it.
* System V numbers the semaphores by an `unsigned short`, POSIX names one for each supplier.
* A process that cannot release a semaphore goes to its end. `SEM_UNDO` then releases it, in the
  System V version; a POSIX semaphore stays taken.

`restocks` is not in the source: it counts the stores of `supply`.
-/

namespace Labs
namespace ConsumerSupplier

open Lib

inductive Version
  | systemV
  | posix
deriving DecidableEq

/-- What the options of the command line fix. -/
structure Config where
  version : Version
  consNum : Nat
  supNum : Nat
  demandUnit : Int
  supplyUnit : Int
  consPos : 0 < consNum
  supPos : 0 < supNum
  demandOk : 0 < demandUnit ∧ demandUnit ≤ INT_MAX
  supplyOk : 0 < supplyUnit ∧ supplyUnit ≤ INT_MAX

/-- The semaphores: a set for the suppliers, and the one of `jobs`. -/
inductive Sem
  | supplier (num : Nat)
  | jobs
deriving DecidableEq

/-- `lock.sem_num` and `smphr[sup_idx]`. -/
def Config.stockSem (c : Config) (j : Fin c.supNum) : Sem :=
  match c.version with
  | .systemV => .supplier (j.val % 65536)
  | .posix => .supplier j.val

/-- What the end of a process does to a semaphore it has not released. -/
def Config.undo (c : Config) (x : Sem) : SemOp Sem :=
  match c.version with
  | .systemV => .post x
  | .posix => .leave x

/-- The segment. -/
structure Shared (c : Config) where
  demUnit : Fin c.consNum → Int
  supUnit : Fin c.supNum → Int
  jobs : Int
  restocks : Nat

variable {c : Config}

def Shared.setDem (m : Shared c) (i : Fin c.consNum) (x : Int) : Shared c :=
  { m with demUnit := Function.update m.demUnit i x }

def Shared.setSup (m : Shared c) (j : Fin c.supNum) (x : Int) : Shared c :=
  { m with supUnit := Function.update m.supUnit j x }

def Shared.setJobs (m : Shared c) (x : Int) : Shared c := { m with jobs := x }

def Shared.restocked (m : Shared c) : Shared c := { m with restocks := m.restocks + 1 }

/-- What the world decides: the value of `rand() % sup_num`, and whether a call fails. -/
inductive Event (c : Config)
  | pick (j : Fin c.supNum)
  | ok
  | fail

/-! ## 1. `consume` -/

inductive ConsumerPlace (c : Config)
  | attach
  | choose
  | lock (j : Fin c.supNum)
  | testSup (j : Fin c.supNum)
  | readDem (j : Fin c.supNum)
  | readSup (j : Fin c.supNum) (dem : Int)
  | readTake (j : Fin c.supNum) (less : Bool)
  | loadDem (j : Fin c.supNum) (take : Int)
  | storeDem (j : Fin c.supNum) (take dem : Int)
  | loadSup (j : Fin c.supNum) (take : Int)
  | storeSup (j : Fin c.supNum) (take sup : Int)
  | testDem (j : Fin c.supNum)
  | unlock (j : Fin c.supNum) (satisfied : Bool)
  | jobsLock
  | loadJobs
  | storeJobs (jobs : Int)
  | jobsUnlock
  | exited

def consume (c : Config) (i : Fin c.consNum) :
    ConsumerPlace c → Shared c → Event c → Option (ConsumerPlace c × Shared c × SemOp Sem)
  | .attach, m, .ok => some (.choose, m, .skip)
  | .attach, m, .fail => some (.exited, m, .skip)
  | .choose, m, .pick j => some (.lock j, m, .skip)
  | .lock j, m, .ok => some (.testSup j, m, .wait (c.stockSem j))
  | .lock _, m, .fail => some (.exited, m, .skip)
  | .testSup j, m, .ok =>
    some (if m.supUnit j ≤ 0 then .unlock j false else .readDem j, m, .skip)
  -- `take`, the smaller one of the two
  | .readDem j, m, .ok => some (.readSup j (m.demUnit i), m, .skip)
  | .readSup j dem, m, .ok => some (.readTake j (decide (dem < m.supUnit j)), m, .skip)
  | .readTake j less, m, .ok =>
    some (.loadDem j (if less then m.demUnit i else m.supUnit j), m, .skip)
  | .loadDem j take, m, .ok => some (.storeDem j take (m.demUnit i), m, .skip)
  | .storeDem j take dem, m, .ok => some (.loadSup j take, m.setDem i (wrap32 (dem - take)), .skip)
  | .loadSup j take, m, .ok => some (.storeSup j take (m.supUnit j), m, .skip)
  | .storeSup j take sup, m, .ok => some (.testDem j, m.setSup j (wrap32 (sup - take)), .skip)
  | .testDem j, m, .ok => some (.unlock j (decide (m.demUnit i ≤ 0)), m, .skip)
  | .unlock j satisfied, m, .ok =>
    some (if satisfied then .jobsLock else .choose, m, .post (c.stockSem j))
  | .unlock j _, m, .fail => some (.exited, m, c.undo (c.stockSem j))
  | .jobsLock, m, .ok => some (.loadJobs, m, .wait .jobs)
  | .jobsLock, m, .fail => some (.exited, m, .skip)
  | .loadJobs, m, .ok => some (.storeJobs m.jobs, m, .skip)
  | .storeJobs jobs, m, .ok => some (.jobsUnlock, m.setJobs (wrap32 (jobs - 1)), .skip)
  | .jobsUnlock, m, .ok => some (.exited, m, .post .jobs)
  | .jobsUnlock, m, .fail => some (.exited, m, c.undo .jobs)
  | _, _, _ => none

/-! ## 2. `supply` -/

inductive SupplierPlace
  | attach
  | lock
  | loadSup
  | storeSup (sup : Int)
  | unlock
  | jobsLock
  | testJobs
  | jobsUnlock (done : Bool)
  | exited

def supply (c : Config) (j : Fin c.supNum) :
    SupplierPlace → Shared c → Event c → Option (SupplierPlace × Shared c × SemOp Sem)
  | .attach, m, .ok => some (.lock, m, .skip)
  | .attach, m, .fail => some (.exited, m, .skip)
  | .lock, m, .ok => some (.loadSup, m, .wait (c.stockSem j))
  | .lock, m, .fail => some (.exited, m, .skip)
  | .loadSup, m, .ok => some (.storeSup (m.supUnit j), m, .skip)
  | .storeSup sup, m, .ok =>
    some (.unlock, (m.setSup j (wrap32 (sup + c.supplyUnit))).restocked, .skip)
  | .unlock, m, .ok => some (.jobsLock, m, .post (c.stockSem j))
  | .unlock, m, .fail => some (.exited, m, c.undo (c.stockSem j))
  | .jobsLock, m, .ok => some (.testJobs, m, .wait .jobs)
  | .jobsLock, m, .fail => some (.exited, m, .skip)
  | .testJobs, m, .ok => some (.jobsUnlock (decide (m.jobs ≤ 0)), m, .skip)
  | .jobsUnlock done, m, .ok => some (if done then .exited else .lock, m, .post .jobs)
  | .jobsUnlock _, m, .fail => some (.exited, m, c.undo .jobs)
  | _, _, _ => none

/-! ## 3. The system -/

/-- The children of the program: the consumers, then the suppliers. -/
abbrev Proc (c : Config) : Type := Fin c.consNum ⊕ Fin c.supNum

abbrev Place (c : Config) : Proc c → Type
  | .inl _ => ConsumerPlace c
  | .inr _ => SupplierPlace

def program (c : Config) : Program (Proc c) (Place c) (Shared c) Sem (Event c)
  | .inl i => consume c i
  | .inr j => supply c j

abbrev State (c : Config) : Type := Sys (Proc c) (Place c) (Shared c) Sem

def entry (c : Config) : (p : Proc c) → Place c p
  | .inl _ => match c.version with
    | .systemV => .attach
    | .posix => .choose
  | .inr _ => match c.version with
    | .systemV => .attach
    | .posix => .lock

/-- What `main` sets up. -/
def init (c : Config) : State c where
  pc := entry c
  mem := ⟨fun _ => c.demandUnit, fun _ => c.supplyUnit, wrap32 c.consNum, 0⟩
  sem := fun _ => 1

def step (c : Config) : State c → Proc c × Event c → Option (State c) := Sys.step (program c)

end ConsumerSupplier
end Labs
