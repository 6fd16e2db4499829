import Labs.Lib.CInt
import Labs.Lib.Progress

/-!
# The gas station

`refill`, `purchase` and `main` of `LAB_13/task_cond_wait/src/cond_wait_signal_4.c` and of
`cond_wait_signal_5.c`, for any number of cars. In the source there are `THREAD_NUM - 1` of them.

A place stands before one access to a shared variable or one call. The mutex is a semaphore that
starts at one. `pthread_cond_wait` is two steps: the first one releases the mutex and joins those
that wait on the condition, the second one acquires the mutex again when the thread has been woken.
A signal wakes one of those that wait, if there is one, and which one is up to the world; a
broadcast wakes them all. A spurious wake-up wakes a thread for no reason.

The calls succeed. `refills` is not in the source: it counts the stores of `refill`. `created` is
the number of threads that `main` has started.
-/

namespace Labs
namespace GasStation

open Lib

abbrev GAS_STORAGE : Int := 35
abbrev TANK_CAPACITY : Int := 75

/-- How `refill` notifies the customers: the one of `cond_wait_signal_4`, or of
    `cond_wait_signal_5`. -/
inductive Version
  | signal
  | broadcast
deriving DecidableEq

structure Config where
  version : Version
  cars : Nat
  carsPos : 0 < cars

variable {c : Config}

abbrev Customer (c : Config) : Type := Fin c.cars

inductive Thread (c : Config)
  | main
  | refiller
  | customer (i : Customer c)
deriving DecidableEq

/-- What a thread has to do with the condition that it waits on at times. -/
inductive Wait
  | out
  | waiting
  | woken
deriving DecidableEq

/-- `empty` is `cond_station_empty`, where the customers wait, and `full` is `cond_station_full`,
    where the refiller does. -/
structure Shared (c : Config) where
  fuel : Int
  cars : Customer c → Int
  refills : Nat
  empty : Customer c → Wait
  full : Wait
  created : Nat
  refillerReturned : Bool
  returned : Customer c → Bool

def Wait.wake : Wait → Wait
  | .waiting => .woken
  | w => w

namespace Shared

variable (m : Shared c)

def setFuel (x : Int) : Shared c := { m with fuel := x }

def refill : Shared c := { m with fuel := 35, refills := m.refills + 1 }

def setCar (i : Customer c) (x : Int) : Shared c :=
  { m with cars := Function.update m.cars i x }

def setEmpty (i : Customer c) (w : Wait) : Shared c :=
  { m with empty := Function.update m.empty i w }

def setFull (w : Wait) : Shared c := { m with full := w }

/-- `pthread_cond_broadcast(&cond_station_empty)`. -/
def broadcast : Shared c := { m with empty := fun i => (m.empty i).wake }

/-- `pthread_cond_signal(&cond_station_full)`. -/
def signalFull : Shared c := m.setFull m.full.wake

def finish (i : Customer c) : Shared c :=
  { m with returned := Function.update m.returned i true }

end Shared

/-- What the world decides: which waiting customer a signal wakes, and a spurious wake-up. -/
inductive Event (c : Config)
  | ok
  | wake (i : Customer c)
  | spurious

/-! ## 1. `refill` -/

inductive RefillerPlace
  | start
  | lock
  | scan (i : Nat)
  | testFuel (doRefill : Bool)
  | condWait (doRefill : Bool)
  | asleep (doRefill : Bool)
  | setFuel
  | notify
  | unlock
  | leaveNotify
  | leaveUnlock
  | returned
deriving DecidableEq

/-- `is_refill_needed`, at `cars[i]`. -/
def isRefillNeeded (m : Shared c) (i : Nat) : RefillerPlace :=
  if h : i < c.cars then
    if m.cars ⟨i, h⟩ < TANK_CAPACITY then .testFuel true else .scan (i + 1)
  else .testFuel false

/-- A signal to a customer that waits on `cond_station_empty`. -/
def signalEmpty (m : Shared c) : Event c → Option (Shared c)
  | .ok => if ∀ i, m.empty i ≠ .waiting then some m else none
  | .wake i => if m.empty i = .waiting then some (m.setEmpty i .woken) else none
  | .spurious => none

/-- The notification after a refill. -/
def notifyEmpty (v : Version) (m : Shared c) (e : Event c) : Option (Shared c) :=
  match v, e with
  | .signal, e => signalEmpty m e
  | .broadcast, .ok => some m.broadcast
  | .broadcast, _ => none

def refill (c : Config) :
    RefillerPlace → Shared c → Event c → Option (RefillerPlace × Shared c × SemOp Unit)
  | .start, m, .ok => if 0 < m.created then some (.lock, m, .skip) else none
  | .lock, m, .ok => some (.scan 0, m, .wait ())
  | .scan i, m, .ok => some (isRefillNeeded m i, m, .skip)
  | .testFuel doRefill, m, .ok =>
    if GAS_STORAGE ≤ m.fuel ∧ doRefill = true then some (.condWait doRefill, m, .skip)
    else if doRefill = false then
      -- `cond_wait_signal_4` signals to the customers here too
      some (if c.version = .signal then .leaveNotify else .leaveUnlock, m, .skip)
    else some (.setFuel, m, .skip)
  | .condWait doRefill, m, .ok => some (.asleep doRefill, m.setFull .waiting, .post ())
  | .asleep doRefill, m, .ok =>
    if m.full = .waiting then none else some (.testFuel doRefill, m.setFull .out, .wait ())
  | .asleep doRefill, m, .spurious => some (.asleep doRefill, m.setFull m.full.wake, .skip)
  | .setFuel, m, .ok => some (.notify, m.refill, .skip)
  | .notify, m, e => (notifyEmpty c.version m e).map fun m => (.unlock, m, .skip)
  | .unlock, m, .ok => some (.lock, m, .post ())
  | .leaveNotify, m, e => (signalEmpty m e).map fun m => (.leaveUnlock, m, .skip)
  | .leaveUnlock, m, .ok => some (.returned, { m with refillerReturned := true }, .post ())
  | _, _, _ => none

/-! ## 2. `purchase` -/

inductive CustomerPlace
  | start
  | lock
  | testFuel
  | condWait
  | asleep
  | loadCar
  | loadFuel (car : Int)
  | storeCar (car fuel : Int)
  | clearFuel
  | testCar
  | signalFull (filled : Bool)
  | unlock (filled : Bool)
  | returned
deriving DecidableEq

def purchase (i : Customer c) :
    CustomerPlace → Shared c → Event c → Option (CustomerPlace × Shared c × SemOp Unit)
  | .start, m, .ok => if i.val + 1 < m.created then some (.lock, m, .skip) else none
  | .lock, m, .ok => some (.testFuel, m, .wait ())
  | .testFuel, m, .ok => some (if m.fuel = 0 then .condWait else .loadCar, m, .skip)
  | .condWait, m, .ok => some (.asleep, m.setEmpty i .waiting, .post ())
  | .asleep, m, .ok =>
    if m.empty i = .waiting then none else some (.testFuel, m.setEmpty i .out, .wait ())
  | .asleep, m, .spurious => some (.asleep, m.setEmpty i (m.empty i).wake, .skip)
  -- `cars[i] += fuel`
  | .loadCar, m, .ok => some (.loadFuel (m.cars i), m, .skip)
  | .loadFuel car, m, .ok => some (.storeCar car m.fuel, m, .skip)
  | .storeCar car fuel, m, .ok => some (.clearFuel, m.setCar i (wrap32 (car + fuel)), .skip)
  | .clearFuel, m, .ok => some (.testCar, m.setFuel 0, .skip)
  | .testCar, m, .ok => some (.signalFull (decide (TANK_CAPACITY ≤ m.cars i)), m, .skip)
  | .signalFull filled, m, .ok => some (.unlock filled, m.signalFull, .skip)
  | .unlock true, m, .ok => some (.returned, m.finish i, .post ())
  | .unlock false, m, .ok => some (.lock, m, .post ())
  | _, _, _ => none

/-! ## 3. `main` -/

/-- The threads are numbered as in `threads`: the refiller is the first one. -/
inductive MainPlace
  | create (k : Nat)
  | join (k : Nat)
  | returned
deriving DecidableEq

/-- The thread with the number `k` has returned. -/
def Shared.gone (m : Shared c) (k : Nat) : Bool :=
  match k with
  | 0 => m.refillerReturned
  | k + 1 => if h : k < c.cars then m.returned ⟨k, h⟩ else true

def mainThread (c : Config) :
    MainPlace → Shared c → Event c → Option (MainPlace × Shared c × SemOp Unit)
  | .create k, m, .ok =>
    some (if k + 1 < c.cars + 1 then .create (k + 1) else .join 0, { m with created := k + 1 },
      .skip)
  | .join k, m, .ok =>
    if m.gone k then some (if k + 1 < c.cars + 1 then .join (k + 1) else .returned, m, .skip)
    else none
  | _, _, _ => none

/-! ## 4. The system -/

abbrev Place : Thread c → Type
  | .main => MainPlace
  | .refiller => RefillerPlace
  | .customer _ => CustomerPlace

def program (c : Config) : Program (Thread c) Place (Shared c) Unit (Event c)
  | .main => mainThread c
  | .refiller => refill c
  | .customer i => purchase i

abbrev State (c : Config) : Type := Sys (Thread c) Place (Shared c) Unit

def entry : (t : Thread c) → Place t
  | .main => .create 0
  | .refiller => .start
  | .customer _ => .start

def init (c : Config) : State c where
  pc := entry
  mem := ⟨0, fun _ => 0, 0, fun _ => .out, .out, 0, false, fun _ => false⟩
  sem := fun _ => 1

def step (c : Config) : State c → Thread c × Event c → Option (State c) := Sys.step (program c)

end GasStation
end Labs
