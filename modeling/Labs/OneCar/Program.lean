import Labs.GasStation.Program

/-!
# The gas station with one car

`refill`, `purchase` and `main` of `LAB_13/task_cond_wait/src/cond_wait_signal_1.c`, of
`cond_wait_signal_2.c` and of `cond_wait_signal_3.c`. The first one has one condition for both
threads, and a signal wakes whoever waits on it. The third one looks at the car where it decides
whether to wait, and not before.

As in the other gas station a place stands before one access to a shared variable or one call, and
`pthread_cond_wait` is two steps. A condition of `while` or `if` is one step. The calls succeed.
`refills` counts the stores of `refill`, `created` the threads that `main` has started.
-/

namespace Labs
namespace OneCar

open Lib
open GasStation (GAS_STORAGE TANK_CAPACITY Wait)

inductive Version
  | first
  | second
  | third
deriving DecidableEq

inductive Role
  | customer
  | refiller
deriving DecidableEq

structure Shared where
  fuel : Int
  car : Int
  refills : Nat
  wait : Role → Wait
  created : Nat
  returned : Role → Bool

namespace Shared

variable (m : Shared)

def refill : Shared := { m with fuel := 35, refills := m.refills + 1 }

def setFuel (x : Int) : Shared := { m with fuel := x }

def setCar (x : Int) : Shared := { m with car := x }

def setWait (r : Role) (w : Wait) : Shared := { m with wait := Function.update m.wait r w }

def finish (r : Role) : Shared := { m with returned := Function.update m.returned r true }

end Shared

/-- What the world decides: whom a signal wakes, and a spurious wake-up. -/
inductive Event
  | ok
  | wake (r : Role)
  | spurious

/-- A signal that is meant for `aim` is heard by whoever waits on the same condition. -/
def Version.Hears (v : Version) (aim r : Role) : Prop := v = .first ∨ r = aim

instance (v : Version) (aim r : Role) : Decidable (v.Hears aim r) :=
  inferInstanceAs (Decidable (_ ∨ _))

/-- The signal finds nobody. -/
def Lost (v : Version) (aim : Role) (m : Shared) : Prop :=
  ¬ (v.Hears aim .customer ∧ m.wait .customer = .waiting) ∧
    ¬ (v.Hears aim .refiller ∧ m.wait .refiller = .waiting)

instance (v : Version) (aim : Role) (m : Shared) : Decidable (Lost v aim m) :=
  inferInstanceAs (Decidable (_ ∧ _))

/-- `pthread_cond_signal`. -/
def signal (v : Version) (aim : Role) (m : Shared) : Event → Option Shared
  | .ok => if Lost v aim m then some m else none
  | .wake r =>
    if v.Hears aim r ∧ m.wait r = .waiting then some (m.setWait r .woken) else none
  | .spurious => none

/-! ## 1. `refill` -/

inductive RefillerPlace
  | start
  | lock
  | testCar
  | testFuel
  | condWait
  | asleep
  | testAgain
  | setFuel
  | notify
  | unlock
  | leaveNotify
  | leaveUnlock
  | returned
deriving DecidableEq

/-- The condition of the loop around `pthread_cond_wait`. -/
def Version.Full (v : Version) (m : Shared) : Prop :=
  GAS_STORAGE ≤ m.fuel ∧ (v = .third → m.car < TANK_CAPACITY)

instance (v : Version) (m : Shared) : Decidable (v.Full m) := inferInstanceAs (Decidable (_ ∧ _))

def refill (v : Version) :
    RefillerPlace → Shared → Event → Option (RefillerPlace × Shared × SemOp Unit)
  | .start, m, .ok => if 1 < m.created then some (.lock, m, .skip) else none
  | .lock, m, .ok => some (if v = .third then .testFuel else .testCar, m, .wait ())
  | .testCar, m, .ok =>
    some (if TANK_CAPACITY ≤ m.car then .leaveNotify else .testFuel, m, .skip)
  | .testFuel, m, .ok => some (if v.Full m then .condWait else .testAgain, m, .skip)
  | .condWait, m, .ok => some (.asleep, m.setWait .refiller .waiting, .post ())
  | .asleep, m, .ok =>
    if m.wait .refiller = .waiting then none
    else some (.testFuel, m.setWait .refiller .out, .wait ())
  | .asleep, m, .spurious =>
    some (.asleep, m.setWait .refiller (m.wait .refiller).wake, .skip)
  | .testAgain, m, .ok =>
    some (if TANK_CAPACITY ≤ m.car then .leaveNotify else .setFuel, m, .skip)
  | .setFuel, m, .ok => some (.notify, m.refill, .skip)
  | .notify, m, e => (signal v .customer m e).map fun m => (.unlock, m, .skip)
  | .unlock, m, .ok => some (.lock, m, .post ())
  | .leaveNotify, m, e => (signal v .customer m e).map fun m => (.leaveUnlock, m, .skip)
  | .leaveUnlock, m, .ok => some (.returned, m.finish .refiller, .post ())
  | _, _, _ => none

/-! ## 2. `purchase` -/

inductive CustomerPlace
  | start
  | lock
  | testFuel
  | condWait
  | asleep
  | loadCar
  | loadFuel (car : Int)
  | storeCar (car fuel : Int)
  | clearFuel
  | testCar
  | notify (filled : Bool)
  | unlock (filled : Bool)
  | returned
deriving DecidableEq

def purchase (v : Version) :
    CustomerPlace → Shared → Event → Option (CustomerPlace × Shared × SemOp Unit)
  | .start, m, .ok => if 0 < m.created then some (.lock, m, .skip) else none
  | .lock, m, .ok => some (.testFuel, m, .wait ())
  | .testFuel, m, .ok => some (if m.fuel = 0 then .condWait else .loadCar, m, .skip)
  | .condWait, m, .ok => some (.asleep, m.setWait .customer .waiting, .post ())
  | .asleep, m, .ok =>
    if m.wait .customer = .waiting then none
    else some (.testFuel, m.setWait .customer .out, .wait ())
  | .asleep, m, .spurious =>
    some (.asleep, m.setWait .customer (m.wait .customer).wake, .skip)
  -- `car += fuel`
  | .loadCar, m, .ok => some (.loadFuel m.car, m, .skip)
  | .loadFuel car, m, .ok => some (.storeCar car m.fuel, m, .skip)
  | .storeCar car fuel, m, .ok => some (.clearFuel, m.setCar (wrap32 (car + fuel)), .skip)
  | .clearFuel, m, .ok => some (.testCar, m.setFuel 0, .skip)
  | .testCar, m, .ok => some (.notify (decide (TANK_CAPACITY ≤ m.car)), m, .skip)
  | .notify filled, m, e => (signal v .refiller m e).map fun m => (.unlock filled, m, .skip)
  | .unlock true, m, .ok => some (.returned, m.finish .customer, .post ())
  | .unlock false, m, .ok => some (.lock, m, .post ())
  | _, _, _ => none

/-! ## 3. The system -/

inductive MainPlace
  | create (i : Nat)
  | join (i : Nat)
  | returned
deriving DecidableEq

/-- `threads[0]` runs `purchase` and `threads[1]` runs `refill`. -/
def Shared.gone (m : Shared) (i : Nat) : Bool :=
  m.returned (if i = 0 then .customer else .refiller)

def mainThread : MainPlace → Shared → Event → Option (MainPlace × Shared × SemOp Unit)
  | .create i, m, .ok =>
    some (if i + 1 < 2 then .create (i + 1) else .join 0, { m with created := i + 1 }, .skip)
  | .join i, m, .ok =>
    if m.gone i then some (if i + 1 < 2 then .join (i + 1) else .returned, m, .skip) else none
  | _, _, _ => none

inductive Thread
  | main
  | customer
  | refiller
deriving DecidableEq

abbrev Place : Thread → Type
  | .main => MainPlace
  | .customer => CustomerPlace
  | .refiller => RefillerPlace

def program (v : Version) : Program Thread Place Shared Unit Event
  | .main => mainThread
  | .customer => purchase v
  | .refiller => refill v

abbrev State : Type := Sys Thread Place Shared Unit

def entry : (t : Thread) → Place t
  | .main => .create 0
  | .customer => .start
  | .refiller => .start

def init : State where
  pc := entry
  mem := ⟨35, 0, 0, fun _ => .out, 0, fun _ => false⟩
  sem := fun _ => 1

def step (v : Version) : State → Thread × Event → Option State := Sys.step (program v)

end OneCar
end Labs
