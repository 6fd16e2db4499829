import Labs.EchoServer.Buffer
import Labs.Lib.Processes
import Labs.Lib.Stdio

/-!
# A conversation by datagrams

The server and the client of `LAB_17/task_udp_inet/src`. A client greets the server with a `ping`,
and then sends its whole buffer for each line of its standard input; the server answers with its
whole buffer, a `!` behind the text. Both stop at a text that `strncmp` takes for `close`: the
client leaves, and so does the server, whatever other clients there are.

Any number of clients run. A datagram is in flight until it is received, or lost; a `send` that fails
is a datagram that is lost. `recv` fails where the server has left, the other calls do not. The
addresses that are printed are left out.
-/

namespace Labs
namespace EchoServer

open Lib

structure Config where
  clients : Nat
  input : Fin clients → List UInt8

variable {c : Config}

/-- The datagrams in flight, and whether the socket of the server is open. -/
structure Net (c : Config) where
  requests : Fin c.clients → Option (List UInt8)
  replies : Fin c.clients → Option (List UInt8)
  serving : Bool

inductive Event (c : Config)
  | ok
  | receive (i : Fin c.clients)
  | loseRequest (i : Fin c.clients)
  | loseReply (i : Fin c.clients)
  | refused

/-! ## 1. The server -/

inductive ServerPlace
  | recvfrom (buffer : Buffer)
  | returned
  | outOfBounds

/-- `0 == strncmp("close", buffer, strlen(buffer)) || EOF == buffer[0]`. -/
def serverCloses (b : Buffer) : Bool :=
  strncmpEq (ascii "close") b.bytes (strlen b.bytes) || b.bytes.head? == some 255

def serve (b : Buffer) (i : Fin c.clients) (request : List UInt8) (m : Net c) :
    ServerPlace × Net c :=
  let m' := { m with requests := Function.update m.requests i none }
  let b' := recvfrom b request
  if request = [] then (.recvfrom b', m')
  -- the text is printed
  else if NUL ∉ b'.bytes then (.outOfBounds, m')
  else if serverCloses b' then (.returned, { m' with serving := false })
  else
    match strncat b' with
    | none => (.outOfBounds, m')
    | some b'' => (.recvfrom b'', { m' with replies := Function.update m'.replies i (some b''.bytes) })

def server : ServerPlace → Net c → Event c → Option (ServerPlace × Net c × SemOp Empty)
  | .recvfrom b, m, .receive i =>
    (m.requests i).map fun request => ((serve b i request m).1, (serve b i request m).2, .skip)
  | _, _, _ => none

/-! ## 2. A client -/

/-- `said` and `printed` are the texts that it has sent and the texts that it has printed, the last
    one at the end. -/
structure Client where
  buffer : Buffer
  input : List UInt8
  said : List (List UInt8)
  printed : List (List UInt8)

inductive ClientPlace
  | greet
  | greeted
  | enter (k : Client)
  | recv (k : Client)
  | returned (k : Client)
  | outOfBounds

/-- `0 == strncmp(buffer, "close", buf_len) || EOF == buffer[0]`. -/
def clientCloses (b : Buffer) (bufLen : Nat) : Bool :=
  strncmpEq b.bytes (ascii "close") bufLen || b.bytes.head? == some 255

/-- `fgets(buffer, BUFFER_SIZE, stdin)`, which leaves the buffer as it is at the end of the
    input. -/
def fgetsBuffer (k : Client) : Option (Buffer × List UInt8) :=
  match fgets BUFFER_SIZE k.input with
  | none => some (k.buffer, k.input)
  | some (line, rest) => (k.buffer.write 0 (line ++ [NUL])).map fun b => (b, rest)

/-- The first half of the loop: the last byte of the text is cut off, and the buffer is sent. -/
def say (k : Client) : Option (Client × Bool) :=
  (fgetsBuffer k).bind fun r =>
    match memchr r.1.bytes NUL with
    | none => none
    -- `strlen(buffer) - 1` is no place in the buffer
    | some 0 => none
    | some (bufLen + 1) =>
      (r.1.write bufLen [NUL]).map fun b =>
        (⟨b, r.2, k.said ++ [cstr b.bytes], k.printed⟩, clientCloses b bufLen)

/-- The other half, once the buffer is what `recv` has left. -/
def print (k : Client) (b : Buffer) : ClientPlace :=
  if NUL ∉ b.bytes then .outOfBounds
  else .enter { k with buffer := b, printed := k.printed ++ [cstr b.bytes] }

def client (i : Fin c.clients) :
    ClientPlace → Net c → Event c → Option (ClientPlace × Net c × SemOp Empty)
  | .greet, m, .ok =>
    some (.greeted, { m with requests := Function.update m.requests i (some (ascii "ping")) }, .skip)
  | .greeted, m, .ok =>
    (m.replies i).map fun reply =>
      (.enter ⟨recvfrom (.zero _) reply, c.input i, [], []⟩,
        { m with replies := Function.update m.replies i none }, .skip)
  | .enter k, m, .ok =>
    match say k with
    | none => some (.outOfBounds, m, .skip)
    | some (k', closes) =>
      some (if closes then .returned k' else .recv k',
        { m with requests := Function.update m.requests i (some k'.buffer.bytes) }, .skip)
  | .recv k, m, .ok =>
    (m.replies i).map fun reply =>
      (print k (recvfrom k.buffer reply),
        { m with replies := Function.update m.replies i none }, .skip)
  -- the datagram has come to a closed socket, and `recv` reports it
  | .recv k, m, .refused =>
    if m.serving then none
    else
      (m.requests i).map fun _ =>
        (print k k.buffer, { m with requests := Function.update m.requests i none }, .skip)
  | _, _, _ => none

/-! ## 3. The system -/

inductive Party (c : Config)
  | server
  | client (i : Fin c.clients)
  | network
deriving DecidableEq

abbrev Place : Party c → Type
  | .server => ServerPlace
  | .client _ => ClientPlace
  | .network => Unit

def network : Unit → Net c → Event c → Option (Unit × Net c × SemOp Empty)
  | (), m, .loseRequest i => some ((), { m with requests := Function.update m.requests i none }, .skip)
  | (), m, .loseReply i => some ((), { m with replies := Function.update m.replies i none }, .skip)
  | _, _, _ => none

def program (c : Config) : Program (Party c) Place (Net c) Empty (Event c)
  | .server => server
  | .client i => client i
  | .network => network

abbrev State (c : Config) : Type := Sys (Party c) Place (Net c) Empty

def entry : (p : Party c) → Place p
  | .server => ServerPlace.recvfrom (.zero _)
  | .client _ => ClientPlace.greet
  | .network => ()

def init (c : Config) : State c where
  pc := entry
  mem := ⟨fun _ => none, fun _ => none, true⟩
  sem := fun _ => 1

def step (c : Config) : State c → Party c × Event c → Option (State c) := Sys.step (program c)

end EchoServer
end Labs
