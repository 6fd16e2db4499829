import Labs.Lib.Block
import Labs.Lib.CInt
import Labs.Lib.CString

/-!
# The AF_LOCAL stream server

`LAB_17/task_af_local_tcp_socket/src/server.c`, from `accept` on. One client is served at a
time; `main`'s inner loop blocks in `recv`, appends what arrived to `frame_buf`, answers every
newline-terminated frame the buffer then holds, moves the rest to the front of the buffer and
goes back to `recv`.

* `drainFrames` is the `do … while` over `memchr`. The pointer `p` is the list of the bytes
  from `p` to the end of the received data, so `p = ch + 1` is `drop (k + 1)`, and
  `frame_buf + frame_nbytes - p` is its length.
* `onData` is the body of the loop for `nbytes > 0`: the overflow test, `memcpy`, the frames,
  `memmove`. A write outside `frame_buf` is the turn `fault`.
* `serveConn` runs one connection, `run` the outer `accept` loop. Both ways out of a
  connection zero `frame_buf` and `frame_nbytes`; `i` restarts at `0` after `accept`.

`send` transmits whole replies and `accept` and `recv` do not fail; each of the three failing
leads to `end:` and ends the process.
-/

namespace Labs
namespace AfLocal

open Lib

def BUF_SIZ : Nat := 256

/-- `sizeof(frame_buf)` and `sizeof(send_buf)`. -/
def FRAME_BUF_SIZ : Nat := BUF_SIZ * 2

/-- A positive result of `recv(c_sockfd, buf, sizeof(buf), 0)`. -/
structure Chunk where
  bytes : List UInt8
  nonempty : 0 < bytes.length
  fits : bytes.length ≤ BUF_SIZ

/-- The bytes a client has sent once the chunks `cs` have been received. -/
def stream (cs : List Chunk) : List UInt8 := (cs.map Chunk.bytes).flatten

structure Server where
  frameBuf : Block FRAME_BUF_SIZ
  frameNbytes : Nat
  i : Int

/-- The state at the first `recv` of a connection. -/
def Server.fresh : Server := { frameBuf := .zero _, frameNbytes := 0, i := 0 }

/-- `frame_buf[0 .. frame_nbytes)`. -/
def Server.pending (s : Server) : List UInt8 := s.frameBuf.read 0 s.frameNbytes

/-- The text of `"Frame%d: %.*s received!\n"` at `i`, `(int)(ch - p)`, `p`. -/
def frameText (i : Int) (prec : Nat) (p : List UInt8) : List UInt8 :=
  ascii "Frame" ++ decimal i ++ ascii ": " ++ precStr prec p ++ ascii " received!\n"

/-- The bytes sent for a frame: `send_buf` up to and with its terminator. -/
def reply (i : Int) (prec : Nat) (p : List UInt8) : List UInt8 :=
  let sendBuf := snprintf FRAME_BUF_SIZ (frameText i prec p)
  sendBuf.take (strlen sendBuf + 1)

/-- The `do … while` loop from `p` on: the replies, then `i` and `p` at its end. -/
def drainFrames : Nat → Int → List UInt8 → List (List UInt8) × Int × List UInt8
  -- every turn takes a newline, so there are no more turns than bytes
  | 0, i, p => ([], i, p)
  | fuel + 1, i, p =>
    match memchr p NEWLINE with
    | none => ([], i, p)
    | some k =>
      let r := drainFrames fuel (wrap32 (i + 1)) (p.drop (k + 1))
      (reply i k p :: r.1, r.2)

/-- How one pass of the loop ends. -/
inductive Turn
  /-- back at `recv`, after these replies -/
  | loop (s : Server) (sent : List (List UInt8))
  /-- the message is too long: the connection is closed and the buffers are zeroed -/
  | dropped
  /-- an access outside `frame_buf` -/
  | fault

def onData (s : Server) (buf : List UInt8) : Turn :=
  if s.frameNbytes + buf.length > FRAME_BUF_SIZ then .dropped
  else
    let frameNbytes := s.frameNbytes + buf.length
    match s.frameBuf.write s.frameNbytes buf with
    | none => .fault
    | some frameBuf =>
      let p := frameBuf.read 0 frameNbytes
      match memchr p NEWLINE with
      | none => .loop { s with frameBuf, frameNbytes } []
      | some _ =>
        let r := drainFrames frameNbytes s.i p
        let len := r.2.2.length
        -- the `memset` of the buffer, or the `memmove` of what is left
        if len = 0 then .loop { frameBuf, frameNbytes := 0, i := r.2.1 } r.1
        else
          match frameBuf.write 0 r.2.2 with
          | none => .fault
          | some moved => .loop { frameBuf := moved, frameNbytes := len, i := r.2.1 } r.1

inductive Ending
  | disconnected
  | dropped
  | fault
deriving DecidableEq

/-- What one connection leaves behind: the state at each call of `recv`, the replies in the
    order they were sent, and how the connection ended. -/
structure Served where
  atRecv : List Server
  sent : List (List UInt8)
  ending : Ending

/-- The inner loop, over the chunks `recv` returns before it returns `0`. -/
def serveConn : Server → List Chunk → Served
  | s, [] => { atRecv := [s], sent := [], ending := .disconnected }
  | s, c :: cs =>
    match onData s c.bytes with
    | .loop s' sent =>
      let r := serveConn s' cs
      { r with atRecv := s :: r.atRecv, sent := sent ++ r.sent }
    | .dropped => { atRecv := [s], sent := [], ending := .dropped }
    | .fault => { atRecv := [s], sent := [], ending := .fault }

/-- The outer loop. After a fault no further client is served. -/
def run : Server → List (List Chunk) → List Served
  | _, [] => []
  | s, conn :: conns =>
    let r := serveConn { s with i := 0 } conn
    match r.ending with
    | .fault => [r]
    | .disconnected | .dropped =>
      r :: run { s with frameBuf := .zero _, frameNbytes := 0 } conns

end AfLocal
end Labs
