import Labs.Lib.CInt
import Labs.Lib.Processes

/-!
# Customers and stores

`purchase_start`, `supply_start` and `main` of `LAB_13/task_customer/src/customer_store_3.c`, as
programs over the globals and the mutexes. As in a program with threads, a place stands before one
access to a shared variable or one call; the reads of the `printf` calls are left out.

A mutex is a semaphore that starts at one. `pthread_cond_wait` is two steps: the first one releases
the mutex and joins the threads that are `waiting` on the condition, the second one, when the thread
is not among them any more, acquires the mutex again. `pthread_cond_broadcast` lets all of them go.
A spurious wake-up lets one go for no reason.

What `rand` answers is decided by the world. `pthread_create` does not fail, and neither do the
other calls, whose results the source does not look at. `created` and `returned` are what
`pthread_create` and `pthread_join` need to know of a thread. A customer has no demand before
`main` has drawn one.
-/

namespace Labs
namespace CustomerStore

open Lib

abbrev STORE_NUM : Nat := 3
abbrev CUSTOMER_NUM : Nat := 5
abbrev MAX_DEMAND : Nat := 5500
abbrev MIN_SUPPLY : Nat := 500

instance : NeZero STORE_NUM := ⟨by decide⟩
instance : NeZero MAX_DEMAND := ⟨by decide⟩
instance : NeZero MIN_SUPPLY := ⟨by decide⟩

abbrev Store : Type := Fin STORE_NUM
abbrev Customer : Type := Fin CUSTOMER_NUM

/-- There are as many suppliers as stores, but a supplier serves them all. -/
inductive Thread
  | main
  | customer (i : Customer)
  | supplier (j : Store)
deriving DecidableEq

inductive Mutex
  | store (num : Store)
  | flag
deriving DecidableEq

/-- `cond_store_empty`, for the customers, and `cond_store_full`, for the suppliers. -/
inductive Cond
  | empty (num : Store)
  | full (num : Store)
deriving DecidableEq

structure Shared where
  storesOpen : Bool
  goods : Store → Int
  demand : Customer → Int
  waiting : Cond → Thread → Bool
  created : Thread → Bool
  returned : Thread → Bool

namespace Shared

def setGoods (m : Shared) (num : Store) (x : Int) : Shared :=
  { m with goods := Function.update m.goods num x }

def setDemand (m : Shared) (i : Customer) (x : Int) : Shared :=
  { m with demand := Function.update m.demand i x }

def setWaiting (m : Shared) (cond : Cond) (ts : Thread → Bool) : Shared :=
  { m with waiting := Function.update m.waiting cond ts }

/-- A thread joins the threads that wait on the condition. -/
def sleep (m : Shared) (cond : Cond) (t : Thread) : Shared :=
  m.setWaiting cond (Function.update (m.waiting cond) t true)

/-- One thread wakes up, for no reason. -/
def wake (m : Shared) (cond : Cond) (t : Thread) : Shared :=
  m.setWaiting cond (Function.update (m.waiting cond) t false)

def broadcast (m : Shared) (cond : Cond) : Shared := m.setWaiting cond fun _ => false

def create (m : Shared) (t : Thread) : Shared :=
  { m with created := Function.update m.created t true }

def finish (m : Shared) (t : Thread) : Shared :=
  { m with returned := Function.update m.returned t true }

def close (m : Shared) : Shared := { m with storesOpen := false }

end Shared

/-- What the world decides. -/
inductive Event
  | ok
  | pick (num : Store)
  | drawDemand (x : Fin MAX_DEMAND)
  | drawGoods (x : Fin MIN_SUPPLY)
  | spurious
deriving DecidableEq

/-! ## 1. `purchase_start` -/

inductive CustomerPlace
  | start
  | testDemand
  | choose
  | lock (num : Store)
  | testGoods (num : Store)
  | condWait (num : Store)
  | asleep (num : Store)
  | loadDemand (num : Store)
  | storeDemand (num : Store) (demand : Int)
  | loadGoods (num : Store)
  | storeGoods (num : Store) (goods : Int)
  | testEmpty (num : Store)
  | broadcast (num : Store)
  | unlock (num : Store)
  | returned

def purchaseStart (i : Customer) :
    CustomerPlace → Shared → Event → Option (CustomerPlace × Shared × SemOp Mutex)
  | .start, m, .ok => if m.created (.customer i) then some (.testDemand, m, .skip) else none
  | .testDemand, m, .ok =>
    if 0 < m.demand i then some (.choose, m, .skip)
    else some (.returned, m.finish (.customer i), .skip)
  | .choose, m, .pick num => some (.lock num, m, .skip)
  | .lock num, m, .ok => some (.testGoods num, m, .wait (.store num))
  | .testGoods num, m, .ok =>
    if m.goods num ≤ 0 then some (.condWait num, m, .skip) else some (.loadDemand num, m, .skip)
  | .condWait num, m, .ok =>
    some (.asleep num, m.sleep (.empty num) (.customer i), .post (.store num))
  | .asleep num, m, .ok =>
    if m.waiting (.empty num) (.customer i) then none
    else some (.testGoods num, m, .wait (.store num))
  | .asleep num, m, .spurious => some (.asleep num, m.wake (.empty num) (.customer i), .skip)
  | .loadDemand num, m, .ok => some (.storeDemand num (m.demand i), m, .skip)
  | .storeDemand num demand, m, .ok =>
    some (.loadGoods num, m.setDemand i (wrap32 (demand - 500)), .skip)
  | .loadGoods num, m, .ok => some (.storeGoods num (m.goods num), m, .skip)
  | .storeGoods num goods, m, .ok =>
    some (.testEmpty num, m.setGoods num (wrap32 (goods - 500)), .skip)
  | .testEmpty num, m, .ok =>
    if m.goods num ≤ 0 then some (.broadcast num, m, .skip) else some (.unlock num, m, .skip)
  | .broadcast num, m, .ok => some (.unlock num, m.broadcast (.full num), .skip)
  | .unlock num, m, .ok => some (.testDemand, m, .post (.store num))
  | _, _, _ => none

/-! ## 2. `supply_start` -/

/-- `full` says in which of the two tests of `stores_open` the supplier is: the one of the inner
    loop, or the one behind it. -/
inductive SupplierPlace
  | start
  | choose
  | lock (num : Store)
  | testGoods (num : Store)
  | lockFlag (num : Store) (full : Bool)
  | testOpen (num : Store) (full : Bool)
  | unlockFlag (num : Store) (full : Bool)
  | condWait (num : Store)
  | asleep (num : Store)
  | loadGoods (num : Store)
  | storeGoods (num : Store) (goods : Int)
  | testFull (num : Store)
  | broadcast (num : Store)
  | unlock (num : Store)
  | closedFlag (num : Store)
  | closedUnlock (num : Store)
  | returned

def supplyStart (j : Store) :
    SupplierPlace → Shared → Event → Option (SupplierPlace × Shared × SemOp Mutex)
  | .start, m, .ok => if m.created (.supplier j) then some (.choose, m, .skip) else none
  | .choose, m, .pick num => some (.lock num, m, .skip)
  | .lock num, m, .ok => some (.testGoods num, m, .wait (.store num))
  | .testGoods num, m, .ok => some (.lockFlag num (decide (0 < m.goods num)), m, .skip)
  -- the flag is tested before the wait, and before the goods are supplied
  | .lockFlag num full, m, .ok => some (.testOpen num full, m, .wait .flag)
  | .testOpen num full, m, .ok =>
    if m.storesOpen then some (.unlockFlag num full, m, .skip)
    else some (.closedFlag num, m, .skip)
  | .unlockFlag num true, m, .ok => some (.condWait num, m, .post .flag)
  | .unlockFlag num false, m, .ok => some (.loadGoods num, m, .post .flag)
  | .condWait num, m, .ok =>
    some (.asleep num, m.sleep (.full num) (.supplier j), .post (.store num))
  | .asleep num, m, .ok =>
    if m.waiting (.full num) (.supplier j) then none
    else some (.testGoods num, m, .wait (.store num))
  | .asleep num, m, .spurious => some (.asleep num, m.wake (.full num) (.supplier j), .skip)
  | .loadGoods num, m, .ok => some (.storeGoods num (m.goods num), m, .skip)
  | .storeGoods num goods, m, .ok =>
    some (.testFull num, m.setGoods num (wrap32 (goods + 500)), .skip)
  | .testFull num, m, .ok =>
    if 0 < m.goods num then some (.broadcast num, m, .skip) else some (.unlock num, m, .skip)
  | .broadcast num, m, .ok => some (.unlock num, m.broadcast (.empty num), .skip)
  | .unlock num, m, .ok => some (.choose, m, .post (.store num))
  | .closedFlag num, m, .ok => some (.closedUnlock num, m, .post .flag)
  | .closedUnlock num, m, .ok => some (.returned, m.finish (.supplier j), .post (.store num))
  | _, _, _ => none

/-! ## 3. `main` -/

inductive MainPlace
  | createCustomer (i : Customer)
  | setGoods (j : Store)
  | createSupplier (j : Store)
  | joinCustomer (i : Customer)
  | lockFlag
  | close
  | unlockFlag
  | lock (num : Store)
  | broadcast (num : Store)
  | unlock (num : Store)
  | joinSupplier (j : Store)
  | returned

/-- The next turn of a loop over `i`, or what comes after it. -/
def following {n : Nat} {α : Type} (i : Fin n) (turn : Fin n → α) (after : α) : α :=
  if h : i.val + 1 < n then turn ⟨i.val + 1, h⟩ else after

def firstCustomer : Customer := 0
def firstStore : Store := 0

def mainThread : MainPlace → Shared → Event → Option (MainPlace × Shared × SemOp Mutex)
  | .createCustomer i, m, .drawDemand x =>
    some (following i .createCustomer (.setGoods firstStore),
      (m.setDemand i x.val).create (.customer i), .skip)
  | .setGoods j, m, .drawGoods x => some (.createSupplier j, m.setGoods j x.val, .skip)
  | .createSupplier j, m, .ok =>
    some (following j .setGoods (.joinCustomer firstCustomer), m.create (.supplier j), .skip)
  | .joinCustomer i, m, .ok =>
    if m.returned (.customer i) then some (following i .joinCustomer .lockFlag, m, .skip) else none
  | .lockFlag, m, .ok => some (.close, m, .wait .flag)
  | .close, m, .ok => some (.unlockFlag, m.close, .skip)
  | .unlockFlag, m, .ok => some (.lock firstStore, m, .post .flag)
  | .lock num, m, .ok => some (.broadcast num, m, .wait (.store num))
  | .broadcast num, m, .ok => some (.unlock num, m.broadcast (.full num), .skip)
  | .unlock num, m, .ok =>
    some (following num .lock (.joinSupplier firstStore), m, .post (.store num))
  | .joinSupplier j, m, .ok =>
    if m.returned (.supplier j) then some (following j .joinSupplier .returned, m, .skip) else none
  | _, _, _ => none

/-! ## 4. The system -/

abbrev Place : Thread → Type
  | .main => MainPlace
  | .customer _ => CustomerPlace
  | .supplier _ => SupplierPlace

def program : Program Thread Place Shared Mutex Event
  | .main => mainThread
  | .customer i => purchaseStart i
  | .supplier j => supplyStart j

abbrev State : Type := Sys Thread Place Shared Mutex

def entry : (t : Thread) → Place t
  | .main => .createCustomer firstCustomer
  | .customer _ => .start
  | .supplier _ => .start

def init : State where
  pc := entry
  mem := ⟨true, fun _ => 0, fun _ => 0, fun _ _ => false, fun _ => false, fun _ => false⟩
  sem := fun _ => 1

def step : State → Thread × Event → Option State := Sys.step program

end CustomerStore
end Labs
