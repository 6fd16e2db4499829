import Labs.ConsumerSupplier.Conservation

/-!
# The parent

`consumer_supplier`, from the first `fork` to `Every consumer has been satisfied`. The parent
forks the consumers and then the suppliers, and waits for them in that order. When a `fork` or a
`waitpid` fails it kills the children that it has not waited for, and says nothing.

A child runs its program until it ends or is killed; `SEM_UNDO` releases the semaphore of a killed
child in the System V version.
-/

namespace Labs
namespace ConsumerSupplier

open Lib

variable {c : Config}

/-! ## 1. The children -/

/-- The semaphore that the process has at this place. -/
def ConsumerPlace.semaphore : ConsumerPlace c → Option Sem
  | .testSup j | .readDem j | .readSup j _ | .readTake j _ | .loadDem j _ | .storeDem j _ _
  | .loadSup j _ | .storeSup j _ _ | .testDem j | .unlock j _ => some (c.stockSem j)
  | .loadJobs | .storeJobs _ | .jobsUnlock => some .jobs
  | .attach | .choose | .lock _ | .jobsLock | .exited => none

def SupplierPlace.semaphore (j : Fin c.supNum) : SupplierPlace → Option Sem
  | .loadSup | .storeSup _ | .unlock => some (c.stockSem j)
  | .testJobs | .jobsUnlock _ => some .jobs
  | .attach | .lock | .jobsLock | .exited => none

def semaphore : (p : Proc c) → Place c p → Option Sem
  | .inl _, pc => ConsumerPlace.semaphore pc
  | .inr j, pc => SupplierPlace.semaphore j pc

/-- A child: where it is, and whether it has not been killed. -/
structure Kid (c : Config) (p : Proc c) where
  place : Place c p
  alive : Bool

/-- What `SIGKILL` does to the semaphores. -/
def killOp (p : Proc c) (pc : Place c p) : SemOp Sem :=
  match semaphore p pc with
  | some x => c.undo x
  | none => .skip

/-- A child takes a step of its program, or is killed (`none`). -/
def child (c : Config) : Program (Proc c) (Kid c) (Shared c) Sem (Option (Event c))
  | p, ⟨pc, true⟩, m, some e =>
    (program c p pc m e).map fun r => (⟨r.1, true⟩, r.2.1, r.2.2)
  | p, ⟨pc, true⟩, m, none => some (⟨pc, false⟩, m, killOp p pc)
  | _, ⟨_, false⟩, _, _ => none

/-- The child has called `exit`. -/
def exited : (p : Proc c) → Place c p → Bool
  | .inl _, .exited => true
  | .inr _, .exited => true
  | _, _ => false

/-! ## 2. The parent -/

/-- Where the parent is; `failed` says that `status` is `EXIT_FAILURE`. -/
inductive ParentPlace
  | fork (k : Nat)
  | kill (k : Nat) (failed : Bool)
  | waitpid (k : Nat) (failed : Bool)
  | report (failed : Bool)
  | done (said : Bool)

def Config.procNum (c : Config) : Nat := c.consNum + c.supNum

/-- The child with this index in `pid_list`. -/
def Config.childAt (c : Config) (k : Nat) : Option (Proc c) :=
  if h : k < c.consNum then some (.inl ⟨k, h⟩)
  else if h' : k - c.consNum < c.supNum then some (.inr ⟨k - c.consNum, h'⟩)
  else none

def index : Proc c → Nat
  | .inl i => i.val
  | .inr j => c.consNum + j.val

structure World (c : Config) where
  kids : Sys (Proc c) (Kid c) (Shared c) Sem
  parent : ParentPlace
  /-- The forks that have succeeded. -/
  forked : Nat

/-- A step of a child, or one of the parent, whose call succeeds or fails. -/
inductive Turn (c : Config)
  | child (p : Proc c) (e : Event c)
  | parent (ok : Bool)

/-- The loop of the deallocation section, at `pid_list[k]`. -/
def reap (w : World c) (k : Nat) (failed : Bool) : Option (World c) :=
  match c.childAt k with
  | none => some { w with parent := .report failed }
  | some p =>
    if w.forked ≤ k then some { w with parent := .kill (k + 1) failed }
    else if failed then
      (Sys.step (child c) w.kids (p, none)).map fun kids =>
        { w with kids := kids, parent := .waitpid k failed }
    else some { w with parent := .waitpid k failed }

/-- `waitpid` returns when the child is gone. -/
def waitFor (w : World c) (k : Nat) (failed : Bool) : Option (World c) :=
  match c.childAt k with
  | none => none
  | some p =>
    if (w.kids.pc p).alive = false ∨ exited p (w.kids.pc p).place = true then
      some { w with parent := .kill (k + 1) failed }
    else none

def parentStep (w : World c) (ok : Bool) : Option (World c) :=
  match w.parent, ok with
  | .fork k, true =>
    some { w with
      forked := k + 1
      parent := if k + 1 < c.procNum then .fork (k + 1) else .kill 0 false }
  | .fork _, false => some { w with parent := .kill 0 true }
  | .kill k failed, true => reap w k failed
  | .waitpid k failed, true => waitFor w k failed
  | .waitpid k _, false => some { w with parent := .kill (k + 1) true }
  | .report failed, true => some { w with parent := .done (!failed) }
  | _, _ => none

namespace World

def step (w : World c) : Turn c → Option (World c)
  | .child p e =>
    if index p < w.forked then
      (Sys.step (ConsumerSupplier.child c) w.kids (p, some e)).map fun kids => { w with kids := kids }
    else none
  | .parent ok => parentStep w ok

/-- The segment is set up, and there are no children yet. -/
def init (c : Config) : World c where
  kids := ⟨fun p => ⟨entry c p, true⟩, (ConsumerSupplier.init c).mem, fun _ => 1⟩
  parent := .fork 0
  forked := 0

end World

end ConsumerSupplier
end Labs
