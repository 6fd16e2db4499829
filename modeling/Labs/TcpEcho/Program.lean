import Labs.EchoServer.Answers
import Labs.Lib.Processes

/-!
# An echo server that serves one client after another

The server and the client of `LAB_17/task_tcp_inet/src`. The server accepts a client and answers it
until it hangs up. Then it asks on its standard input whether to wait for another one, and reads one
byte: anything but a `y` closes the socket, `accept` fails, and it leaves. The buffer is the one of
the other echo servers, never cleared; a client reads its lines as those of the datagrams do, but it
leaves before it sends a text that closes the conversation.

Any number of clients run. A connection is two streams of bytes; as both sides pass `MSG_WAITALL`, a
`recv` waits for a whole buffer or for the end of the stream. A client is connected once it has a
place in the queue behind `accept`, which is short. Where the server closes its socket, the
connections of those that are still in the queue are reset, and `send` and `recv` fail there. Other
calls do not fail. The addresses that are printed are left out.
-/

namespace Labs
namespace TcpEcho

open Lib
open EchoServer (BUFFER_SIZE Buffer Client recvfrom strncat say)

def BACK_LOG : Nat := 5

/-- `answers` is the standard input of the server. -/
structure Config where
  clients : Nat
  input : Fin clients → List UInt8
  answers : List UInt8

variable {c : Config}

/-- What has been sent and not yet received, and whether the sender has closed its side. -/
structure Stream where
  bytes : List UInt8
  closed : Bool

def Stream.send (s : Stream) (bytes : List UInt8) : Stream := { s with bytes := s.bytes ++ bytes }

/-- `recv(…, BUFFER_SIZE, MSG_WAITALL)`. -/
def Stream.recv (s : Stream) : Option (List UInt8 × Stream) :=
  if BUFFER_SIZE ≤ s.bytes.length ∨ s.closed then
    some (s.bytes.take BUFFER_SIZE, { s with bytes := s.bytes.drop BUFFER_SIZE })
  else none

/-- `queue` has the clients that wait to be accepted. -/
structure Net (c : Config) where
  queue : List (Fin c.clients)
  toServer : Fin c.clients → Stream
  toClient : Fin c.clients → Stream
  listening : Bool

def Net.setToServer (m : Net c) (i : Fin c.clients) (s : Stream) : Net c :=
  { m with toServer := Function.update m.toServer i s }

def Net.setToClient (m : Net c) (i : Fin c.clients) (s : Stream) : Net c :=
  { m with toClient := Function.update m.toClient i s }

/-- `close` of a client's end. -/
def Net.hangUp (m : Net c) (i : Fin c.clients) : Net c :=
  m.setToServer i { m.toServer i with closed := true }

/-- The connection of a client that was never accepted, once the socket is closed. -/
def Net.IsReset (m : Net c) (i : Fin c.clients) : Prop := m.listening = false ∧ i ∈ m.queue

instance (m : Net c) (i : Fin c.clients) : Decidable (m.IsReset i) :=
  inferInstanceAs (Decidable (_ ∧ _))

inductive Event
  | ok
  | fails

/-! ## 1. The server -/

/-- `served` has the clients that were accepted, and `printed` the texts with the client that each is
    from, the last one at the end. -/
structure Server (c : Config) where
  buffer : Buffer
  input : List UInt8
  served : List (Fin c.clients)
  printed : List (Fin c.clients × List UInt8)

inductive ServerPlace (c : Config)
  | accept (s : Server c)
  | recv (i : Fin c.clients) (s : Server c)
  | send (i : Fin c.clients) (s : Server c)
  | ask (s : Server c)
  | closed (s : Server c)
  | returned (s : Server c)
  | outOfBounds

/-- What `recv` has left in the buffer is printed. -/
def heard (i : Fin c.clients) (s : Server c) (got : List UInt8) : ServerPlace c :=
  let b := recvfrom s.buffer got
  if got = [] then .ask s
  else if NUL ∉ b.bytes then .outOfBounds
  else .send i { s with buffer := b, printed := s.printed ++ [(i, cstr b.bytes)] }

def server : ServerPlace c → Net c → Event → Option (ServerPlace c × Net c × SemOp Empty)
  | .accept s, m, .ok =>
    match m.queue with
    | [] => none
    | i :: queue =>
      some (.recv i { s with served := s.served ++ [i] }, { m with queue := queue }, .skip)
  | .recv i s, m, .ok =>
    (m.toServer i).recv.map fun r => (heard i s r.1, m.setToServer i r.2, .skip)
  | .send i s, m, .ok =>
    match strncat s.buffer with
    | none => some (.outOfBounds, m, .skip)
    | some b =>
      some (.recv i { s with buffer := b }, m.setToClient i ((m.toClient i).send b.bytes), .skip)
  -- `fgets(micro_buf, 2, stdin)` reads one byte
  | .ask s, m, .ok =>
    if s.input.head? = some 121 then some (.accept { s with input := s.input.tail }, m, .skip)
    else some (.closed { s with input := s.input.tail }, { m with listening := false }, .skip)
  | .closed s, m, .ok => some (.returned s, m, .skip)
  | _, _, _ => none

/-! ## 2. A client -/

inductive ClientPlace
  | connect
  | enter (k : Client)
  | recv (k : Client)
  | returned (k : Client)
  | refused
  | outOfBounds

def told (k : Client) (b : Buffer) : ClientPlace :=
  if NUL ∉ b.bytes then .outOfBounds
  else .enter { k with buffer := b, printed := k.printed ++ [cstr b.bytes] }

/-- A client whose standard input is empty takes `strlen(buffer) - 1` of an empty text for a place in
    its buffer; what it does behind that is left out. -/
def client (i : Fin c.clients) :
    ClientPlace → Net c → Event → Option (ClientPlace × Net c × SemOp Empty)
  | .connect, m, .ok =>
    if ¬ m.listening then some (.refused, m, .skip)
    else if m.queue.length ≤ BACK_LOG then
      some (.enter ⟨.zero _, c.input i, [], []⟩, { m with queue := m.queue ++ [i] }, .skip)
    else none
  | .enter k, m, .ok =>
    match say k with
    | none => some (.outOfBounds, m, .skip)
    | some (_, true) => some (.returned k, m.hangUp i, .skip)
    | some (k', false) => some (.recv k', m.setToServer i ((m.toServer i).send k'.buffer.bytes), .skip)
  | .enter k, m, .fails =>
    if m.IsReset i then
      match say k with
      | none => some (.outOfBounds, m, .skip)
      | some _ => some (.returned k, m.hangUp i, .skip)
    else none
  | .recv k, m, .ok =>
    (m.toClient i).recv.map fun r => (told k (recvfrom k.buffer r.1), m.setToClient i r.2, .skip)
  | .recv k, m, .fails => if m.IsReset i then some (.returned k, m.hangUp i, .skip) else none
  | _, _, _ => none

/-! ## 3. The system -/

inductive Party (c : Config)
  | server
  | client (i : Fin c.clients)
deriving DecidableEq

abbrev Place : Party c → Type
  | .server => ServerPlace c
  | .client _ => ClientPlace

def program (c : Config) : Program (Party c) Place (Net c) Empty Event
  | .server => server
  | .client i => client i

abbrev State (c : Config) : Type := Sys (Party c) Place (Net c) Empty

def entry (c : Config) : (p : Party c) → Place p
  | .server => ServerPlace.accept ⟨.zero _, c.answers, [], []⟩
  | .client _ => ClientPlace.connect

def init (c : Config) : State c where
  pc := entry c
  mem := ⟨[], fun _ => ⟨[], false⟩, fun _ => ⟨[], false⟩, true⟩
  sem := fun _ => 1

def step (c : Config) : State c → Party c × Event → Option (State c) := Sys.step (program c)

end TcpEcho
end Labs
