import Labs.Lib.CInt
import Labs.Lib.CString
import Labs.Lib.MessageQueue
import Labs.Lib.Processes

/-!
# Sending a file through a message queue

`LAB_15/task_posix_queues_3/src/sender_receiver.c` from `mq_open` on, for one sender and one
receiver of a queue that the two have created. The step of a program ends with its call on the
queue: `mq_send`, `mq_receive` and `mq_getattr` are the only things that the other one sees.

* The sender reads `payload_size` bytes of the file at a time, and sends `payload_size` bytes,
  whatever `read` has returned.
* `nbytes` starts at `-1` in both programs.
* The receiver leaves if it finds no message at its start. It goes on until `mq_getattr` finds
  none; whether the sender is done it does not know.

`read` returns as much as there is of the file, and no call fails. `received` has the payloads, of
the lengths that `mq_receive` returns. The texts that the receiver prints are left out, and so is
the name of the queue.
-/

namespace Labs
namespace PosixQueue

open Lib

def MSG_MAX_SIZE : Nat := 8192
def MSG_MAX_NUM : Nat := 8

/-- The contents of a regular file, whose size is an `off_t`. -/
structure RegularFile where
  bytes : List UInt8
  size_le : (bytes.length : Int) ≤ SSIZE_MAX

/-- `payload_size` of the sender. -/
def RegularFile.payloadSize (file : RegularFile) : Nat :=
  if MSG_MAX_SIZE < file.bytes.length then MSG_MAX_SIZE else file.bytes.length

/-! ## 1. The sender -/

inductive SenderPlace
  | reading
  | sending (rbytes : Nat)
  | done
deriving DecidableEq

structure Sender where
  place : SenderPlace
  /-- what is not yet read of the file -/
  rest : List UInt8
  payload : List UInt8
  nbytes : Int
  msgSent : Int
deriving DecidableEq

/-- After `calloc` and `open`. -/
def Sender.start (file : RegularFile) : Sender :=
  ⟨.reading, file.bytes, List.replicate (file.payloadSize + 1) NUL, -1, 0⟩

/-- `read` and the test for the end of the file, then `mq_send` and what is counted. -/
def sender (payloadSize prio : Nat) (s : Sender) (q : List Message) :
    Option (Sender × List Message) :=
  match s.place with
  | .reading =>
    let chunk := s.rest.take payloadSize
    let place := if 0 < s.msgSent ∧ chunk.length = 0 then .done else .sending chunk.length
    some ({ s with
      place
      rest := s.rest.drop payloadSize
      payload := chunk ++ s.payload.drop chunk.length }, q)
  | .sending rbytes =>
    (mqSend MSG_MAX_NUM q ⟨prio, s.payload.take payloadSize⟩).map fun q =>
      ({ s with
        place := .reading
        nbytes := wrap64 (s.nbytes + rbytes)
        msgSent := wrap32 (s.msgSent + 1)
        payload := List.replicate payloadSize NUL ++ s.payload.drop payloadSize }, q)
  | .done => none

/-! ## 2. The receiver -/

inductive ReceiverPlace
  | start
  | receiving
  | again
  | left
  | done
deriving DecidableEq

structure Receiver where
  place : ReceiverPlace
  msgNum : Nat
  nbytes : Int
  msgRead : Int
  received : List (List UInt8)
deriving DecidableEq

def Receiver.start : Receiver := ⟨.start, 0, -1, 0, []⟩

/-- A turn of the `for` loop with the message that `mq_receive` returns. -/
def Receiver.take (r : Receiver) (payload : List UInt8) : Receiver :=
  { place := if 0 < r.msgNum - 1 then .receiving else .again
    msgNum := r.msgNum - 1
    nbytes := if 0 < payload.length then wrap64 (r.nbytes + payload.length) else r.nbytes
    msgRead := wrap32 (r.msgRead + 1)
    received := r.received ++ [payload] }

def receiver (r : Receiver) (q : List Message) : Option (Receiver × List Message) :=
  match r.place with
  | .start =>
    if q.length = 0 then some ({ r with place := .left }, q)
    else some ({ r with place := .receiving, msgNum := q.length }, q)
  | .receiving => (mqReceive q).map fun r' => (r.take r'.1.payload, r'.2)
  | .again =>
    if 0 < q.length then some ({ r with place := .receiving, msgNum := q.length }, q)
    else some ({ r with place := .done, msgNum := q.length }, q)
  | .left | .done => none

/-! ## 3. The system -/

inductive Party
  | sender
  | receiver

structure State where
  sender : Sender
  receiver : Receiver
  queue : List Message
deriving DecidableEq

def State.init (file : RegularFile) : State := ⟨.start file, .start, []⟩

def step (file : RegularFile) (prio : Nat) (s : State) : Party → Option State
  | .sender => (sender file.payloadSize prio s.sender s.queue).map fun r =>
    { s with sender := r.1, queue := r.2 }
  | .receiver => (receiver s.receiver s.queue).map fun r =>
    { s with receiver := r.1, queue := r.2 }

/-- The states of all the interleavings. -/
def Reachable (file : RegularFile) (prio : Nat) : State → Prop :=
  Reaches (step file prio) (fun _ _ => True) (State.init file)

/-- The sender has put the whole file on the queue, and the receiver has drained it. -/
def State.Completed (s : State) : Prop :=
  s.sender.place = .done ∧ s.receiver.place = .done ∧ s.queue = []

/-- The payloads are the file, and the totals that are printed are its size. -/
def State.RoundTrip (file : RegularFile) (s : State) : Prop :=
  s.receiver.received.flatten = file.bytes ∧ s.sender.nbytes = file.bytes.length ∧
    s.receiver.nbytes = file.bytes.length

end PosixQueue
end Labs
