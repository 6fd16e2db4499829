import Mathlib.Algebra.GroupWithZero.Nat
import Mathlib.Data.List.MinMax
import Mathlib.Data.List.TakeWhile

/-!
# Message queues

POSIX: the messages of a queue in the order in which they are received, by priority, and the older
one first where the priorities are equal. A queue holds `cap` messages at most. `mqSend` answers
`none` where the sender is blocked, `mqReceive` where the receiver is. A queue that is used with one
priority only is first-in, first-out (`mqSend_eq_append`).

System V: the messages in the order in which they were sent, each with a type. The limit of a queue
is one of its bytes, and of its messages. A receiver that does not wait asks for the lowest type,
up to a bound; `msgrcvUpTo` answers `none` where there is no such message.
-/

namespace Labs
namespace Lib

/-! ## 1. POSIX -/

structure Message where
  prio : Nat
  payload : List UInt8
deriving DecidableEq

/-- `mq_send`: behind the messages of the same and of higher priority. -/
def mqSend (cap : Nat) (q : List Message) (msg : Message) : Option (List Message) :=
  if q.length < cap then
    some (q.takeWhile (msg.prio ≤ ·.prio) ++ msg :: q.dropWhile (msg.prio ≤ ·.prio))
  else none

/-- `mq_receive`. -/
def mqReceive : List Message → Option (Message × List Message)
  | [] => none
  | msg :: q => some (msg, q)

variable {cap : Nat} {q q' : List Message} {msg : Message}

/-- The bytes in the queue. -/
def payloads (q : List Message) : List UInt8 := (q.map Message.payload).flatten

@[simp] theorem payloads_nil : payloads [] = [] := rfl

@[simp] theorem payloads_cons (msg : Message) (q : List Message) :
    payloads (msg :: q) = msg.payload ++ payloads q := rfl

@[simp] theorem payloads_append (q q' : List Message) :
    payloads (q ++ q') = payloads q ++ payloads q' := by
  simp [payloads]

theorem mqSend_perm (h : mqSend cap q msg = some q') : q'.Perm (q ++ [msg]) := by
  unfold mqSend at h
  split at h
  · cases h
    refine List.perm_middle.trans ?_
    rw [List.takeWhile_append_dropWhile]
    exact (List.perm_append_singleton msg q).symm
  · cases h

theorem mqSend_eq_append (hprio : ∀ m ∈ q, m.prio = msg.prio) (h : mqSend cap q msg = some q') :
    q' = q ++ [msg] := by
  unfold mqSend at h
  split at h
  · have hall : ∀ m ∈ q, decide (msg.prio ≤ m.prio) = true := by
      intro m hm
      simp [hprio m hm]
    rw [List.takeWhile_eq_self_iff.mpr hall, List.dropWhile_eq_nil_iff.mpr hall] at h
    cases h
    rfl
  · cases h

/-- A queue with room takes the message. -/
theorem mqSend_of_lt (hprio : ∀ m ∈ q, m.prio = msg.prio) (h : q.length < cap) :
    mqSend cap q msg = some (q ++ [msg]) := by
  cases hsend : mqSend cap q msg with
  | none =>
    rw [mqSend, if_pos h] at hsend
    cases hsend
  | some q' => rw [mqSend_eq_append hprio hsend]

/-! ## 2. System V -/

structure TypedMessage where
  mtype : Nat
  mtext : List UInt8
deriving DecidableEq

/-- `msgsnd`. -/
def msgsnd (qbytes : Nat) (q : List TypedMessage) (msg : TypedMessage) :
    Option (List TypedMessage) :=
  if (q.map (·.mtext.length)).sum + msg.mtext.length ≤ qbytes ∧ q.length + 1 ≤ qbytes then
    some (q ++ [msg])
  else none

/-- `msgrcv` with the type `-bound` and `IPC_NOWAIT`: the first message of the lowest type. -/
def msgrcvUpTo (bound : Nat) (q : List TypedMessage) : Option (TypedMessage × List TypedMessage) :=
  ((q.filter (·.mtype ≤ bound)).argmin TypedMessage.mtype).map fun msg => (msg, q.erase msg)

theorem msgsnd_eq_append {qbytes : Nat} {q q' : List TypedMessage} {msg : TypedMessage}
    (h : msgsnd qbytes q msg = some q') : q' = q ++ [msg] := by
  unfold msgsnd at h
  split at h <;> cases h
  rfl

theorem msgrcvUpTo_none {bound : Nat} {q : List TypedMessage} (h : msgrcvUpTo bound q = none)
    (hall : ∀ msg ∈ q, msg.mtype ≤ bound) : q = [] := by
  have hnone := List.argmin_eq_none.mp (Option.map_eq_none_iff.mp h)
  rw [List.filter_eq_self.mpr fun msg hmsg => decide_eq_true (hall msg hmsg)] at hnone
  exact hnone

theorem msgrcvUpTo_perm {bound : Nat} {q q' : List TypedMessage} {msg : TypedMessage}
    (h : msgrcvUpTo bound q = some (msg, q')) : q.Perm (msg :: q') := by
  obtain ⟨first, hfirst, hq⟩ := Option.map_eq_some_iff.mp h
  cases hq
  exact List.perm_cons_erase (List.mem_of_mem_filter (List.argmin_mem hfirst))

end Lib
end Labs
