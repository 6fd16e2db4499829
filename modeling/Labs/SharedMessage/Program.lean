import Labs.Lib.Progress
import Labs.Lib.Stdio

/-!
# A message through shared memory

The server and the client of `LAB_16/task_posix_shmem_2/src` and of
`LAB_16/task_system_v_shmem_2/src`. The server creates a segment and polls its first byte; a client
reads a line from its standard input and copies it to the segment; the server prints what it finds
and removes the segment. Nothing tells the server that a client has finished.

One server runs, and any number of clients. A place stands before one call, or before one access to
a byte of the segment. `memcpy` and `memset` get their bytes done in any order, and the world says
which one is next. Every call can fail. The options are given, and so is the key; only the one name
is used. An `old` segment is one that an earlier server of the same size has left.
-/

namespace Labs
namespace SharedMessage

open Lib

inductive Version
  | posix
  | systemV
deriving DecidableEq

def EXIT_SUCCESS : Nat := 0
def EXIT_FAILURE : Nat := 1

/-- `memsegSize` is `memseg_size`, and the segment is one byte longer. -/
structure Config where
  version : Version
  clients : Nat
  memsegSize : Nat
  memsegPos : 0 < memsegSize
  old : Option (Nat → UInt8)
  input : Fin clients → List UInt8

variable {c : Config}

/-- `linked` says that the name or the key leads to the segment, and `size` is what a client is
    told. `printed` is what the server has printed of the payload. -/
structure Shared where
  linked : Bool
  size : Option Nat
  bytes : Nat → UInt8
  printed : List UInt8

def Shared.setByte (m : Shared) (j : Nat) (b : UInt8) : Shared :=
  { m with bytes := Function.update m.bytes j b }

inductive Event
  | ok
  | byte (j : Nat)
  | fail

/-! ## 1. The server -/

inductive ServerPlace
  | create
  | resize
  | attach
  | clear (done : Finset Nat)
  | poll
  | terminate
  | print (j : Nat)
  | detach
  | remove
  | returned (status : Nat)
  | outOfBounds
deriving DecidableEq

/-- `shm_open` with `O_EXCL`, or `shmget`, which takes an old segment as it is. -/
def create (c : Config) (m : Shared) : ServerPlace × Shared :=
  match c.version, m.linked with
  | .posix, true => (.returned EXIT_FAILURE, m)
  | .posix, false => (.resize, { m with linked := true, size := some 0, bytes := fun _ => 0 })
  | .systemV, true => (.attach, m)
  | .systemV, false =>
    (.attach, { m with linked := true, size := some (c.memsegSize + 1), bytes := fun _ => 0 })

def server (c : Config) :
    ServerPlace → Shared → Event → Option (ServerPlace × Shared × SemOp Empty)
  | .create, m, .ok => some ((create c m).1, (create c m).2, .skip)
  -- `ftruncate`
  | .resize, m, .ok => some (.attach, { m with size := some (c.memsegSize + 1) }, .skip)
  | .attach, m, .ok => some (if c.version = .posix then .poll else .clear ∅, m, .skip)
  -- `memset(memseg, 0x0, memseg_size + 1)`
  | .clear done, m, .byte j =>
    if j ≤ c.memsegSize ∧ j ∉ done then some (.clear (insert j done), m.setByte j 0, .skip)
    else none
  | .clear done, m, .ok =>
    if ∀ j < c.memsegSize + 1, j ∈ done then some (.poll, m, .skip) else none
  | .poll, m, .ok => some (if m.bytes 0 = 0 then .poll else .terminate, m, .skip)
  | .terminate, m, .ok => some (.print 0, m.setByte c.memsegSize 0, .skip)
  -- `printf("payload = %s\n", payload)`, which gets to the byte `j`
  | .print j, m, .ok =>
    if m.size.getD 0 ≤ j then some (.outOfBounds, m, .skip)
    else if m.bytes j = 0 then some (.detach, m, .skip)
    else some (.print (j + 1), { m with printed := m.printed ++ [m.bytes j] }, .skip)
  | .detach, m, .ok => some (.remove, m, .skip)
  | .remove, m, .ok => some (.returned EXIT_SUCCESS, { m with linked := false }, .skip)
  -- the calls that can fail
  | .create, m, .fail => some (.returned EXIT_FAILURE, m, .skip)
  | .resize, m, .fail => some (.returned EXIT_FAILURE, m, .skip)
  | .attach, m, .fail => some (.returned EXIT_FAILURE, m, .skip)
  | .detach, m, .fail => some (.returned EXIT_FAILURE, m, .skip)
  | .remove, m, .fail => some (.returned EXIT_FAILURE, m, .skip)
  | _, _, _ => none

/-! ## 2. A client -/

inductive ClientPlace
  | find
  | stat
  | read (payloadSize : Nat)
  | attach (msg : List UInt8)
  | copy (msg : List UInt8) (done : Finset Nat)
  | detach
  | returned (status : Nat)
  | outOfBounds
deriving DecidableEq

/-- What the client makes of its input: a message, or the status that it leaves with. -/
def message (payloadSize : Nat) (inp : List UInt8) : Except Nat (List UInt8) :=
  if payloadSize = 0 then .error EXIT_FAILURE
  else if payloadSize = 1 then .error EXIT_SUCCESS
  else
    match fgets payloadSize inp with
    | none => .error EXIT_FAILURE
    | some (payload, _) =>
      if cstr payload = [] ∨ payload.head? = some NEWLINE then .error EXIT_SUCCESS
      else if (cstr payload).getLast? = some NEWLINE then .ok (cstr payload).dropLast
      else .ok (cstr payload)

def client (c : Config) (i : Fin c.clients) :
    ClientPlace → Shared → Event → Option (ClientPlace × Shared × SemOp Empty)
  | .find, m, .ok => some (if m.linked then .stat else .returned EXIT_FAILURE, m, .skip)
  | .stat, m, .ok =>
    -- `fstat` works on the descriptor, `shmctl` needs the segment
    if c.version = .systemV ∧ m.linked = false then some (.returned EXIT_FAILURE, m, .skip)
    else some (.read (m.size.getD 0), m, .skip)
  | .read payloadSize, m, .ok =>
    match message payloadSize (c.input i) with
    | .error status => some (.returned status, m, .skip)
    | .ok msg => some (.attach msg, m, .skip)
  | .attach msg, m, .ok =>
    if c.version = .systemV ∧ m.linked = false then some (.returned EXIT_FAILURE, m, .skip)
    else some (.copy msg ∅, m, .skip)
  -- `memcpy(memseg, payload, len + 1)`
  | .copy msg done, m, .byte j =>
    if j ≤ msg.length ∧ j ∉ done then
      if m.size.getD 0 ≤ j then some (.outOfBounds, m, .skip)
      else some (.copy msg (insert j done), m.setByte j (msg.getD j NUL), .skip)
    else none
  | .copy msg done, m, .ok =>
    if ∀ j < msg.length + 1, j ∈ done then some (.detach, m, .skip) else none
  | .detach, m, .ok => some (.returned EXIT_SUCCESS, m, .skip)
  | .find, m, .fail => some (.returned EXIT_FAILURE, m, .skip)
  | .stat, m, .fail => some (.returned EXIT_FAILURE, m, .skip)
  -- `calloc`
  | .read _, m, .fail => some (.returned EXIT_FAILURE, m, .skip)
  | .attach _, m, .fail => some (.returned EXIT_FAILURE, m, .skip)
  | .detach, m, .fail => some (.returned EXIT_FAILURE, m, .skip)
  | _, _, _ => none

/-! ## 3. The system -/

inductive Party (c : Config)
  | server
  | client (i : Fin c.clients)
deriving DecidableEq

abbrev Place : Party c → Type
  | .server => ServerPlace
  | .client _ => ClientPlace

def program (c : Config) : Program (Party c) Place Shared Empty Event
  | .server => server c
  | .client i => client c i

abbrev State (c : Config) : Type := Sys (Party c) Place Shared Empty

def entry : (p : Party c) → Place p
  | .server => .create
  | .client _ => .find

def init (c : Config) : State c where
  pc := entry
  mem :=
    match c.old with
    | none => ⟨false, none, fun _ => 0, []⟩
    | some bytes => ⟨true, some (c.memsegSize + 1), bytes, []⟩
  sem := fun _ => 1

def step (c : Config) : State c → Party c × Event → Option (State c) := Sys.step (program c)

end SharedMessage
end Labs
