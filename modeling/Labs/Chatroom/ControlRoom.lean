import Labs.Lib.Block
import Labs.Lib.Calls
import Labs.Lib.Stdio
import Labs.Lib.Strtok

/-!
# The control room of the chat server

`server_control_room` of `LAB_16/task_shmem_chatroom/src/server.c`: one process that serves the
messages of all the clients, which write them into a shared segment and find the answer in the
second part of the same segment, the reply area at offset 500.

The clients may rewrite the segment between any two accesses of the server, so what an access
finds is an input of the model. `Turn` has one such input for each access of one pass of the
loop, and the keys and the line that the administrator types in it. A pass answers with what it
writes to the reply area, in order.

* `connect`, `requestData` and `disconnect` are the branches of the `if` chain; a message that is
  none of them is only shown.
* `answer` is the end of the pass, where the administrator types a line, and may leave.
* The two flags live on from pass to pass, as the variables of the source do.

The windows are left out: the rows, the texts that only the administrator sees, and the reads of
the user list that are for them. The semaphores are left out too, and their calls do not fail.
-/

namespace Labs
namespace Chatroom

open Lib

def SEGSIZE : Nat := 4096
def MAX_USR : Nat := 100
def DELIM : List UInt8 := ascii " "
def pswd : List UInt8 := ascii "QWERTY"
def data : List UInt8 := ascii "some data"

/-- The keys `y` and `n`. -/
def YES : Int := 121
def NO : Int := 110

abbrev Segment := Block SEGSIZE

/-- The segment of a client that has written `text` and nothing else. -/
def Segment.holding (text : List UInt8) : Segment :=
  ⟨(text ++ List.replicate SEGSIZE NUL).take SEGSIZE, by simp⟩

/-- What one pass of the loop finds. -/
structure Turn where
  /-- the segment, at the test of its first byte and at the three `strstr` -/
  atTest : Segment
  atPid : Segment
  atRequest : Segment
  atDisconnect : Segment
  /-- the segment that `strtok` splits -/
  atSplit : Segment
  /-- the segment after the countdown, at the `strncmp` with the password -/
  atPassword : Segment
  /-- the answers of `getchar`: send the data, require the password -/
  sendKey : Int
  requireKey : Int
  line : List UInt8

/-- A text that the server writes to the reply area. -/
inductive Reply
  | passwordRequired
  | granted
  | rejected
  | requestedData
  | adminText (line : List UInt8)
  | serverDied
deriving DecidableEq

def Reply.text : Reply → List UInt8
  | .passwordRequired => ascii "password required"
  | .granted => ascii "Granted"
  | .rejected => ascii "Rejected"
  | .requestedData => data
  | .adminText line => line
  | .serverDied => ascii "server died"

/-- The variables that live on from one pass to the next. -/
structure Room where
  yesPswd : Bool
  respFlag : Bool
  userCounter : Int
  userIdData : Vector Int MAX_USR
deriving DecidableEq

def Room.init : Room := ⟨false, false, 0, Vector.replicate MAX_USR 0⟩

/-- The `tolower` of the C locale. -/
def tolower (c : Int) : Int := if 65 ≤ c ∧ c ≤ 90 then c + 32 else c

/-! ## 1. The user list -/

/-- `user_id_data[i] = x`. -/
def storeId (ids : Vector Int MAX_USR) (i x : Int) : Except Stop (Vector Int MAX_USR) :=
  if h : 0 ≤ i ∧ i < MAX_USR then .ok (ids.set i.toNat x (by omega)) else .error .outOfBounds

/-- The second word of the message; without one, `atoi` is called with `NULL`. -/
def secondWord (s : Segment) : Except Stop (List UInt8) :=
  match strtok DELIM (strtok DELIM (cstr s.bytes)).2 with
  | (some word, _) => .ok word
  | (none, _) => .error .nullDeref

def connect (t : Turn) (r : Room) : Except Stop Room := do
  let word ← secondWord t.atSplit
  let ids ← storeId r.userIdData r.userCounter (atoi word)
  return { r with respFlag := true, userIdData := ids, userCounter := wrap32 (r.userCounter + 1) }

def disconnect (r : Room) : Except Stop Room := do
  let ids ← storeId r.userIdData (wrap32 (r.userCounter - 1)) 0
  return { r with userIdData := ids, userCounter := wrap32 (r.userCounter - 1) }

/-! ## 2. Requested data -/

/-- `yes_pswd = TRUE`, and `resp_flag = TRUE` with it where `resp` says so. -/
def Room.allow (r : Room) (resp : Bool) : Room :=
  { r with yesPswd := true, respFlag := r.respFlag || resp }

/-- `resp_flag = TRUE`. -/
def Room.responded (r : Room) : Room := { r with respFlag := true }

/-- The inner `switch`. -/
def askPassword (t : Turn) (r : Room) : Room × List Reply :=
  if tolower t.requireKey = YES then
    if strncmpEq t.atPassword.bytes pswd (strlen pswd) then
      (r.allow false, [.passwordRequired, .granted])
    else (r.allow true, [.passwordRequired, .rejected])
  else if tolower t.requireKey = NO then (r.allow true, [.granted])
  else (r, [])

/-- The outer `switch`. -/
def askAdmin (t : Turn) (r : Room) : Room × List Reply :=
  if tolower t.sendKey = YES then askPassword t r
  else if tolower t.sendKey = NO then (r.responded, [.rejected])
  else (r, [])

/-- What the data is sent with. -/
def Room.sent (r : Room) : Room := { r with respFlag := true, yesPswd := false }

/-- What comes after the switches. -/
def sendData (r : Room) : Room × List Reply :=
  if r.yesPswd then (r.sent, [.requestedData]) else (r, [])

def requestData (t : Turn) (r : Room) : Room × List Reply :=
  let asked := askAdmin t r
  let sent := sendData asked.1
  (sent.1, asked.2 ++ sent.2)

/-! ## 3. A pass of the loop -/

def branch (t : Turn) (r : Room) : Except Stop (Room × List Reply) :=
  if strstr t.atPid.bytes (ascii "PID") then (connect t r).map fun r => (r, [])
  else if strstr t.atRequest.bytes (ascii "request data") then .ok (requestData t r)
  else if strstr t.atDisconnect.bytes (ascii "disconnect") then
    (disconnect r).map fun r => (r, [])
  else .ok (r, [])

/-- The line of the administrator; there is no room after `q`. -/
def answer (t : Turn) (r : Room) : Option Room × List Reply :=
  if r.respFlag then (some r, [])
  else if cstr t.line = ascii "q" then (none, [.serverDied])
  else (some r, [.adminText (cstr t.line)])

/-- `resp_flag = FALSE`. -/
def Room.reset (r : Room) : Room := { r with respFlag := false }

/-- The `if` on a message, with the reset of `resp_flag` that ends it. -/
def serve (t : Turn) (r : Room) : Except Stop (Option Room × List Reply) := do
  let (r, replies) ← branch t r
  let (r, last) := answer t r
  return (r.map Room.reset, replies ++ last)

def pass (t : Turn) (r : Room) : Except Stop (Option Room × List Reply) :=
  if cstr t.atTest.bytes = [] then .ok (some r, []) else serve t r

/-- The loop over the passes: the room at the end, if the server is still there, and the replies
    of every pass. -/
def serverControlRoom : List Turn → Room → Except Stop (Option Room × List (List Reply))
  | [], r => .ok (some r, [])
  | t :: ts, r => do
    match ← pass t r with
    | (none, replies) => return (none, [replies])
    | (some r, replies) =>
      let (last, later) ← serverControlRoom ts r
      return (last, replies :: later)

end Chatroom
end Labs
