import Labs.Lib.CInt
import Labs.Lib.Processes

/-!
# The pool of UDP servers

`server` and `service` of `LAB_17/task_udp_pull_inet/src/server.c`, for any number of threads. In
the source there are `SERV_THREAD_MAX` of them, and the descriptor of the server's own socket is 5.

A place stands before one access to the shared memory or one call. A thread opens a socket, which
takes the next free descriptor, and looks through the table behind `FD_OFFSET` for a slot that is
zero; it reads the slot in one step and stores into it in another. Afterwards it serves requests and
keeps a byte that says whether it is busy, at the index of its descriptor. The server draws a slot
for every client that calls, and answers through the descriptor that it finds there.

The world decides when a thread moves, which slot is drawn, what the clients send, and whether a
`sendto` of the server fails; nothing is sent through a descriptor that is no socket. The other calls
succeed. What is printed and logged is left out, and so are the addresses; `opened` and `created`
count the sockets and the threads, and `packagesLost` is the `int` of the source.
-/

namespace Labs
namespace ServerPool

open Lib

abbrev BUFFER_SIZE : Nat := 1024
abbrev FD_OFFSET : Nat := 500

/-- A `char` stores the descriptors of all sockets. -/
structure Config where
  threads : Nat
  servFd : Nat
  threadsPos : 0 < threads
  servFdPos : 0 < servFd
  fits : servFd + threads < 128

variable {c : Config}

/-- `(char) fd`. -/
def toChar (fd : Int) : Int := Int.bmod fd 256

structure Shared where
  /-- `mem_ptr`. -/
  mem : Nat → Int
  created : Nat
  opened : Nat
  packagesLost : Int

def Shared.store (m : Shared) (i : Nat) (x : Int) : Shared :=
  { m with mem := Function.update m.mem i x }

/-- The slots of the table. -/
def Shared.table (m : Shared) (l : Nat) : Int := m.mem (FD_OFFSET + l)

/-- What the world decides: the slot that is drawn for a client, and whether `sendto` does its work;
    and whether a request is the one that ends a conversation. -/
inductive Event
  | ok
  | call (threadNum : Nat) (sent : Bool)
  | request (last : Bool)

/-! ## 1. `service` -/

inductive ServicePlace
  | start
  | socket
  | look (servFd : Int) (l : Nat)
  | take (servFd : Int) (l : Nat)
  | recvfrom (servFd : Int)
  | test (servFd : Int) (last : Bool)
deriving DecidableEq

def service (c : Config) (i : Fin c.threads) :
    ServicePlace → Shared → Event → Option (ServicePlace × Shared × SemOp Empty)
  | .start, m, .ok => if i.val < m.created then some (.socket, m, .skip) else none
  | .socket, m, .ok =>
    some (.look (c.servFd + 1 + m.opened : Nat) 0, { m with opened := m.opened + 1 }, .skip)
  | .look fd l, m, .ok =>
    some (if l < c.threads then if m.table l = 0 then .take fd l else .look fd (l + 1)
      else .recvfrom fd, m, .skip)
  | .take fd l, m, .ok => some (.recvfrom fd, m.store (FD_OFFSET + l) (toChar fd), .skip)
  | .recvfrom fd, m, .request last => some (.test fd last, m.store fd.toNat 0, .skip)
  | .test fd true, m, .ok => some (.recvfrom fd, m.store fd.toNat 1, .skip)
  | .test fd false, m, .ok => some (.recvfrom fd, m, .skip)
  | _, _, _ => none

/-! ## 2. `server` -/

inductive ServerPlace
  | create (i : Nat)
  | recvfrom
deriving DecidableEq

/-- The sockets are the one of the server and those behind it. -/
def IsSocket (c : Config) (m : Shared) (fd : Int) : Prop :=
  c.servFd ≤ fd ∧ fd ≤ c.servFd + m.opened

instance (c : Config) (m : Shared) (fd : Int) : Decidable (IsSocket c m fd) :=
  inferInstanceAs (Decidable (_ ∧ _))

def server (c : Config) :
    ServerPlace → Shared → Event → Option (ServerPlace × Shared × SemOp Empty)
  | .create i, m, .ok =>
    some (if i + 1 < c.threads then .create (i + 1) else .recvfrom, { m with created := i + 1 },
      .skip)
  | .recvfrom, m, .call threadNum sent =>
    if threadNum < c.threads then
      some (.recvfrom,
        if IsSocket c m (m.table threadNum) ∧ sent = true then m
        else { m with packagesLost := wrap32 (m.packagesLost + 1) }, .skip)
    else none
  | _, _, _ => none

/-! ## 3. The system -/

inductive Party (c : Config)
  | server
  | service (i : Fin c.threads)
deriving DecidableEq

abbrev Place : Party c → Type
  | .server => ServerPlace
  | .service _ => ServicePlace

def program (c : Config) : Program (Party c) Place Shared Empty Event
  | .server => server c
  | .service i => service c i

abbrev State (c : Config) : Type := Sys (Party c) Place Shared Empty

def entry : (p : Party c) → Place p
  | .server => .create 0
  | .service _ => .start

/-- The first twenty bytes say that the servers are free. -/
def init (c : Config) : State c where
  pc := entry
  mem := ⟨fun i => if i < 20 then 1 else 0, 0, 0, 0⟩
  sem := nofun

def step (c : Config) : State c → Party c × Event → Option (State c) := Sys.step (program c)

end ServerPool
end Labs
