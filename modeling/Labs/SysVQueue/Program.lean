import Labs.Lib.MessageQueue
import Labs.Lib.QueueTable
import Mathlib.Logic.Function.Basic

/-!
# Messages under one key

`main` of `LAB_15/task_sys_v_queues_2/src/sender.c` and of `receiver.c`, in any number of runs of
each, which take their steps in any order. `ftok` gives the key of one file to all of them, so there
is one name. Under it there is one queue at most. A call on a queue that was removed fails.

The world decides what is in the two files that a sender reads, and which calls fail. A sender waits
in `msgsnd` for room; `msgQbytes` is the limit of the system. The texts that are printed and the exit
statuses are left out.

`sent` and `received` record what `msgsnd` has accepted, and what `msgrcv` has returned.
-/

namespace Labs
namespace SysVQueue

open Lib

abbrev MSG_SIZE : Nat := 2048
abbrev MSG_NUM : Nat := 2

/-- What `read` finds: as much as there is room for in `mtext`. -/
structure Text where
  bytes : List UInt8
  length_le : bytes.length ≤ MSG_SIZE

inductive Event
  | ok
  | error
  | file (text : Text)

abbrev Table : Type := QueueTable TypedMessage

/-! ## 1. The sender -/

inductive SenderPlace
  /-- `open`, `read` and, for the first message, `ftok` -/
  | read (i : Fin MSG_NUM) (quid : Option Nat)
  | msgget (i : Fin MSG_NUM) (text : Text)
  | msgsnd (i : Fin MSG_NUM) (text : Text) (quid : Nat)
  | returned

namespace SenderPlace

def start : SenderPlace := .read 0 none

/-- The next message, or the end. -/
def following (i : Fin MSG_NUM) (quid : Nat) : SenderPlace :=
  if h : i.val + 1 < MSG_NUM then .read ⟨i.val + 1, h⟩ (some quid) else .returned

/-- Where the sender goes, the queues, and what it has sent. -/
def step (msgQbytes : Nat) : SenderPlace → Table → Event →
    Option (SenderPlace × Table × List TypedMessage)
  | .read i none, t, .file text => some (.msgget i text, t, [])
  | .read i (some quid), t, .file text => some (.msgsnd i text quid, t, [])
  | .read _ _, t, .error => some (.returned, t, [])
  | .msgget i text, t, .ok => some (.msgsnd i text t.number, t.openName, [])
  | .msgget _ _, t, .error => some (.returned, t, [])
  | .msgsnd i text quid, t, .ok =>
    if t.name = some quid then
      let msg : TypedMessage := ⟨i.val + 1, text.bytes⟩
      (Lib.msgsnd msgQbytes (t.queues quid) msg).map fun q =>
        (following i quid, t.set quid q, [msg])
    else some (following i quid, t, [])
  | .msgsnd i _ quid, t, .error => some (following i quid, t, [])
  | _, _, _ => none

end SenderPlace

/-! ## 2. The receiver -/

inductive ReceiverPlace
  | msgget
  | msgrcv (quid : Nat) (i : Fin MSG_NUM) (readNum : Nat)
  /-- before `msgctl` with `IPC_RMID` -/
  | msgctl (quid : Nat)
  | returned
deriving DecidableEq

namespace ReceiverPlace

/-- The next turn of the loop, or the test of `read_num` behind it. -/
def following (quid : Nat) (i : Fin MSG_NUM) (readNum : Nat) : ReceiverPlace :=
  if h : i.val + 1 < MSG_NUM then .msgrcv quid ⟨i.val + 1, h⟩ readNum
  else if 0 < readNum then .msgctl quid else .returned

/-- Where the receiver goes, the queues, and what it has received. -/
def step : ReceiverPlace → Table → Event → Option (ReceiverPlace × Table × List TypedMessage)
  | .msgget, t, .ok => some (.msgrcv t.number 0 0, t.openName, [])
  | .msgget, t, .error => some (.returned, t, [])
  | .msgrcv quid i readNum, t, .ok =>
    if t.name = some quid then
      match msgrcvUpTo MSG_NUM (t.queues quid) with
      -- `ENOMSG` is not an error
      | none => some (following quid i readNum, t, [])
      | some (msg, q) => some (following quid i (readNum + 1), t.set quid q, [msg])
    else some (.msgctl quid, t, [])
  | .msgrcv quid _ _, t, .error => some (.msgctl quid, t, [])
  | .msgctl quid, t, .ok => some (.returned, if t.name = some quid then t.removeName else t, [])
  | .msgctl _, t, .error => some (.returned, t, [])
  | _, _, _ => none

end ReceiverPlace

/-! ## 3. The system -/

structure State (σ ρ : Type) where
  table : Table
  senders : σ → SenderPlace
  receivers : ρ → ReceiverPlace
  sent : List TypedMessage
  received : List TypedMessage

inductive Run (σ ρ : Type)
  | sender (i : σ)
  | receiver (j : ρ)

variable {σ ρ : Type}

def init : State σ ρ := ⟨.empty, fun _ => .start, fun _ => .msgget, [], []⟩

def step [DecidableEq σ] [DecidableEq ρ] (msgQbytes : Nat) (s : State σ ρ) :
    Run σ ρ × Event → Option (State σ ρ)
  | (.sender i, e) => ((s.senders i).step msgQbytes s.table e).map fun r =>
    { s with
      senders := Function.update s.senders i r.1
      table := r.2.1
      sent := s.sent ++ r.2.2 }
  | (.receiver j, e) => ((s.receivers j).step s.table e).map fun r =>
    { s with
      receivers := Function.update s.receivers j r.1
      table := r.2.1
      received := s.received ++ r.2.2 }

end SysVQueue
end Labs
