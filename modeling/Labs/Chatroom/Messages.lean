import Labs.Chatroom.ControlRoom
import Labs.Lib.Processes

/-!
# Messages between the clients and the server

The clients of `LAB_16/task_shmem_chatroom/src/client.c` and the processes of `server.c` as programs
over the shared segment and the two semaphores, in which every call that touches the segment is a
step of its own, except that the three that write a reply are one. The branches and the replies of the
server are those of `ControlRoom`, whose passes it makes while no client writes (`server_serves`).

* `sem_1` is `Sem.room`: the server takes it for a pass, `refresh_chat_room` while it shows the
  segment. `sem_2` is `Sem.client`: posted by the server, waited for by any client.
* No client takes a semaphore before it writes a message.
* `try_wait` waits until the value is `1`, which is the largest it has, and takes it.
* A client reads its line into `msg`, of `SEGSIZE` bytes; the password it reads into the segment.

`sent` and `processed` are not in the source. `sent` has the messages that clients have written, of
which the ones typed are then reported as sent; `processed` has what the server finds in the segment
when it takes a message for what it is: at `strtok`, at the test for `request data`, or when it shows
it. The texts `Success` and the password are no messages.
-/

namespace Labs
namespace Chatroom

open Lib

def REPLY : Nat := 500

/-! ## 1. The segment -/

/-- The string at an offset. -/
def Segment.text (s : Segment) (off : Nat) : List UInt8 := cstr (s.bytes.drop off)

/-- `strncpy` of a text and its end; `none` when it leaves the segment. -/
def Segment.copy (s : Segment) (off : Nat) (text : List UInt8) : Option Segment :=
  Block.write s off (text ++ [NUL])

/-- `strncpy`, and a further end behind the first. -/
def Segment.send (s : Segment) (off : Nat) (text : List UInt8) : Option Segment := do
  let s ← s.copy off text
  Block.write s (off + text.length + 1) [NUL]

/-- `clean_string`. -/
def Segment.clean (s : Segment) (off : Nat) : Segment :=
  (Block.write s off (List.replicate (s.text off).length NUL)).getD s

/-- Where a token starts and where it ends, for the call of `strtok` that goes on at `off`. -/
def tokenAt (str : List UInt8) (off : Nat) : Option (Nat × Nat) :=
  match strtok DELIM (str.drop off) with
  | (none, _) => none
  | (some tok, _) =>
    let start := off + ((str.drop off).takeWhile (· ∈ DELIM)).length
    some (start, start + tok.length)

/-- The two calls of `strtok`: the places of the two words, and the segment with their ends. -/
def Segment.split (s : Segment) : Except Stop (Nat × Nat × Segment) :=
  match tokenAt (s.text 0) 0 with
  | none => .error .nullDeref
  | some (first, firstEnd) =>
    match tokenAt (s.text 0) (firstEnd + 1) with
    | none => .error .nullDeref
    | some (second, secondEnd) =>
      .ok (first, second,
        ⟨(s.bytes.set firstEnd NUL).set secondEnd NUL, by simp only [List.length_set, s.size_eq]⟩)

section Text

variable {s s' : Segment} {text src : List UInt8} {off : Nat}

theorem Segment.text_zero (s : Segment) : s.text 0 = cstr s.bytes := rfl

/-- A write behind the end of the text. -/
theorem Segment.text_write (h : Block.write s off src = some s')
    (hlt : (s.text 0).length < off) : s'.text 0 = s.text 0 := by
  obtain ⟨hle, hbytes⟩ := Block.write_bytes h
  have hoff : off ≤ s.bytes.length := by
    rw [s.size_eq]
    exact Nat.le_of_add_right_le hle
  rw [text_zero, hbytes, List.append_assoc]
  exact cstr_take_append hlt hoff

theorem Segment.text_copy_zero (hnul : NUL ∉ text) (h : s.copy 0 text = some s') :
    s'.text 0 = text := by
  obtain ⟨-, hbytes⟩ := Block.write_bytes h
  rw [text_zero, hbytes, List.take_zero, List.nil_append, List.append_assoc]
  exact cstr_append_nul hnul _

/-- A copy to the end of the text. -/
theorem Segment.text_copy_end (hnul : NUL ∉ text)
    (h : s.copy (s.text 0).length text = some s') : s'.text 0 = s.text 0 ++ text := by
  obtain ⟨-, hbytes⟩ := Block.write_bytes h
  have hfront : s.bytes.take (s.text 0).length = s.text 0 := take_length_cstr s.bytes
  have hboth : NUL ∉ s.text 0 ++ text := by
    intro hmem
    rcases List.mem_append.mp hmem with hmem | hmem
    · exact cstr_nul_free s.bytes hmem
    · exact hnul hmem
  rw [text_zero, hbytes, hfront, List.append_assoc, List.append_assoc, ← List.append_assoc]
  exact cstr_append_nul hboth _

theorem Segment.text_send_zero (hnul : NUL ∉ text) (h : s.send 0 text = some s') :
    s'.text 0 = text := by
  obtain ⟨s₁, hcopy, hwrite⟩ := Option.bind_eq_some_iff.mp h
  have htext : s₁.text 0 = text := text_copy_zero hnul hcopy
  rw [text_write hwrite (by rw [htext]; omega), htext]

theorem Segment.text_send (h : s.send off text = some s') (hlt : (s.text 0).length < off) :
    s'.text 0 = s.text 0 := by
  obtain ⟨s₁, hcopy, hwrite⟩ := Option.bind_eq_some_iff.mp h
  have htext : s₁.text 0 = s.text 0 := text_write hcopy hlt
  rw [text_write hwrite (by rw [htext]; omega), htext]

theorem Segment.text_clean_zero (s : Segment) : (s.clean 0).text 0 = [] := by
  have hle : 0 + (List.replicate (s.text 0).length NUL).length ≤ SEGSIZE := by
    rw [List.length_replicate, Nat.zero_add, ← s.size_eq]
    exact (List.takeWhile_prefix _).length_le
  obtain ⟨s₁, hs₁⟩ := Block.write_of_le hle
  obtain ⟨-, hbytes⟩ := Block.write_bytes hs₁
  rw [clean, hs₁, Option.getD_some, text_zero, hbytes]
  cases hlen : (s.text 0).length with
  | zero => exact List.eq_nil_of_length_eq_zero hlen
  | succ n => rfl

/-- `clean_string` of the area behind the text, or right at its end. -/
theorem Segment.text_clean (hle : (s.text 0).length ≤ off) : (s.clean off).text 0 = s.text 0 := by
  cases hwrite : Block.write s off (List.replicate (s.text off).length NUL) with
  | none => rw [clean, hwrite, Option.getD_none]
  | some s₁ =>
    rw [clean, hwrite, Option.getD_some]
    rcases Nat.lt_or_eq_of_le hle with hlt | heq
    · exact text_write hwrite hlt
    -- at the end of the text there is a NUL, and so nothing to be cleaned
    have hnil : s.text off = [] := by
      rw [← heq]
      exact cstr_drop_length_cstr s.bytes
    obtain ⟨-, hbytes⟩ := Block.write_bytes hwrite
    rw [hnil, List.length_nil, List.replicate_zero, List.append_nil, List.length_nil, Nat.add_zero,
      List.take_append_drop] at hbytes
    rw [text_zero, hbytes, text_zero]

/-- What the server writes to the reply area. -/
theorem Segment.text_reply (hnil : s.text 0 = [])
    (h : (s.clean REPLY).send REPLY text = some s') : s'.text 0 = [] := by
  have hclean : (s.clean REPLY).text 0 = [] := by
    rw [text_clean (by rw [hnil]; exact Nat.zero_le _), hnil]
  rw [text_send h (by rw [hclean]; decide), hclean]

end Text

/-! ## 2. What is shared -/

structure Mail where
  seg : Segment
  room : Room
  sent : List (List UInt8)
  processed : List (List UInt8)

def Mail.clean (m : Mail) (off : Nat) : Mail := { m with seg := m.seg.clean off }

/-- The server takes the text in the segment for a message. -/
def Mail.process (m : Mail) : Mail := { m with processed := m.processed ++ [m.seg.text 0] }

/-- A client has written a message. -/
def Mail.deliver (m : Mail) (seg : Segment) (text : List UInt8) : Mail :=
  { m with seg, sent := m.sent ++ [text] }

inductive Sem
  | room
  | client
deriving DecidableEq

/-- A line of the keyboard without its newline. -/
structure Typed where
  bytes : List UInt8
  plain : NUL ∉ bytes ∧ NEWLINE ∉ bytes
  length_le : bytes.length ≤ SEGSIZE - 2

/-- What is typed in a step that reads it. -/
structure Input where
  line : Typed
  key : Int

/-! ## 3. The server -/

/-- What comes behind a reply. -/
inductive Behind
  | countdown
  | switched
  | answer
  | cleanLast
  | exited
deriving DecidableEq

inductive ServerPlace
  | test
  | tryWait
  | ifPid
  | split
  | cleanFirst (first second : Nat)
  | cleanSecond (second : Nat)
  | cleanPid
  | postPid
  | ifRequest
  | cleanRequest
  | askSend
  | askRequire
  | say (reply : Reply) (behind : Behind)
  | posted (behind : Behind)
  | compare
  | switched
  | answer
  | cleanAnswer
  | cleanReply
  | ifDisconnect
  | showDisconnect
  | cleanDisconnect
  | showChat
  | cleanChat
  | closing
  | sayLine (reply : Reply) (behind : Behind)
  | cleanLast
  | finish
  | exited
  | stopped
deriving DecidableEq

def Behind.place : Behind → ServerPlace
  | .countdown => .compare
  | .switched => .switched
  | .answer => .answer
  | .cleanLast => .cleanLast
  | .exited => .exited

/-- A pass that finds the same segment at every access. -/
def turnAt (s : Segment) : Turn := ⟨s, s, s, s, s, s, 0, 0, []⟩

def afterReply (m : Mail) (behind : Behind) (seg : Option Segment) :
    Option (ServerPlace × Mail × SemOp Sem) :=
  match seg with
  | none => some (.stopped, m, .skip)
  | some seg => some (.posted behind, { m with seg }, .skip)

/-- `server_control_room`. -/
def server : ServerPlace → Mail → Input → Option (ServerPlace × Mail × SemOp Sem)
  | .test, m, _ => some (if m.seg.text 0 = [] then .test else .tryWait, m, .skip)
  | .tryWait, m, _ => some (.ifPid, m, .wait .room)
  | .ifPid, m, _ =>
    some (if strstr m.seg.bytes (ascii "PID") then .split else .ifRequest, m, .skip)
  | .split, m, _ =>
    match m.seg.split, connect (turnAt m.seg) m.room with
    | .ok (first, second, seg), .ok room =>
      some (.cleanFirst first second, { m.process with seg, room }, .skip)
    | _, _ => some (.stopped, m, .skip)
  | .cleanFirst first second, m, _ => some (.cleanSecond second, m.clean first, .skip)
  | .cleanSecond second, m, _ => some (.cleanPid, m.clean second, .skip)
  | .cleanPid, m, _ => some (.postPid, m.clean 0, .skip)
  | .postPid, m, _ => some (.closing, m, .post .client)
  | .ifRequest, m, _ =>
    if strstr m.seg.bytes (ascii "request data") then some (.cleanRequest, m.process, .skip)
    else some (.ifDisconnect, m, .skip)
  | .cleanRequest, m, _ => some (.askSend, m.clean 0, .skip)
  | .askSend, m, e =>
    if tolower e.key = YES then some (.askRequire, m, .skip)
    else if tolower e.key = NO then
      some (.say .rejected .switched, { m with room := m.room.responded }, .skip)
    else some (.switched, m, .skip)
  | .askRequire, m, e =>
    if tolower e.key = YES then
      some (.say .passwordRequired .countdown, { m with room := m.room.allow false }, .skip)
    else if tolower e.key = NO then
      some (.say .granted .switched, { m with room := m.room.allow true }, .skip)
    else some (.switched, m, .skip)
  | .say reply behind, m, _ =>
    afterReply m behind ((m.seg.clean REPLY).send REPLY reply.text)
  | .posted behind, m, _ => some (behind.place, m, .post .client)
  | .compare, m, _ =>
    if strncmpEq m.seg.bytes pswd (strlen pswd) then some (.say .granted .switched, m, .skip)
    else some (.say .rejected .switched, { m with room := m.room.responded }, .skip)
  | .switched, m, _ =>
    some (if m.room.yesPswd then .say .requestedData .answer else .closing, m, .skip)
  | .answer, m, _ => some (.cleanAnswer, { m with room := m.room.sent }, .skip)
  | .cleanAnswer, m, _ => some (.cleanReply, m.clean 0, .skip)
  | .cleanReply, m, _ => some (.closing, m.clean REPLY, .skip)
  | .ifDisconnect, m, _ =>
    some (if strstr m.seg.bytes (ascii "disconnect") then .showDisconnect else .showChat, m, .skip)
  | .showDisconnect, m, _ => some (.cleanDisconnect, m.process, .skip)
  | .cleanDisconnect, m, _ =>
    match disconnect m.room with
    | .error _ => some (.stopped, m.clean 0, .skip)
    | .ok room => some (.closing, { m.clean 0 with room }, .skip)
  | .showChat, m, _ => some (.cleanChat, m.process, .skip)
  | .cleanChat, m, _ => some (.closing, m.clean 0, .skip)
  | .closing, m, e =>
    if m.room.respFlag then some (.finish, m, .skip)
    else if e.line.bytes = ascii "q" then some (.sayLine .serverDied .exited, m, .skip)
    -- the window takes no longer line than this
    else some (.sayLine (.adminText (e.line.bytes.take 99)) .cleanLast, m, .skip)
  | .sayLine reply behind, m, _ => afterReply m behind (m.seg.send REPLY reply.text)
  | .cleanLast, m, _ => some (.finish, m.clean 0, .skip)
  | .finish, m, _ => some (.test, { m with room := m.room.reset }, .post .room)
  | .exited, _, _ => none
  | .stopped, _, _ => none

/-! ## 4. `refresh_chat_room` -/

inductive RefreshPlace
  | waiting
  | showing

def refresh : RefreshPlace → Mail → Input → Option (RefreshPlace × Mail × SemOp Sem)
  | .waiting, m, _ => some (.showing, m, .wait .room)
  | .showing, m, _ => some (.waiting, m, .post .room)

/-! ## 5. A client -/

inductive ClientPlace
  | start
  | connect
  | firstWait
  | secondWait
  | prompt
  | await
  | look
  | password
  | passwordWait
  | lookAgain
  | grantedWait
  | success
  | cleanReply
  | gone
deriving DecidableEq

/-- The chain of `strcmp` with the reply area. -/
def reaction (reply : List UInt8) : ClientPlace :=
  if reply = ascii "Granted" then .grantedWait
  else if reply = ascii "Rejected" then .prompt
  else if reply = ascii "server died" then .gone
  else .cleanReply

/-- A write of a client, which dies if it leaves the segment. -/
def written (place : ClientPlace) (m : Mail) (seg : Option Segment) (change : Segment → Mail) :
    Option (ClientPlace × Mail × SemOp Sem) :=
  match seg with
  | none => some (.gone, m, .skip)
  | some seg => some (place, change seg, .skip)

/-- `fgets` of the password into the segment, and the end in place of its last character. -/
def Segment.typePassword (s : Segment) (line : List UInt8) : Option Segment := do
  let typed := (line ++ [NEWLINE]).take 7
  let s ← s.copy 0 typed
  Block.write s (typed.length - 1) [NUL]

/-- `client`, of the process number `pid`. -/
def client (pid : Int) : ClientPlace → Mail → Input → Option (ClientPlace × Mail × SemOp Sem)
  | .start, m, _ =>
    written .connect m (m.seg.copy 0 (ascii "PID ")) fun seg => { m with seg }
  -- `strncat`
  | .connect, m, _ =>
    written .firstWait m (m.seg.copy (m.seg.text 0).length (decimal pid)) fun seg =>
      m.deliver seg (ascii "PID " ++ decimal pid)
  | .firstWait, m, _ => some (.secondWait, m, .wait .client)
  | .secondWait, m, _ => some (.prompt, m, .wait .client)
  | .prompt, m, e =>
    if e.line.bytes = ascii "q" then
      written .gone m (m.seg.send 0 (ascii "disconnect")) fun seg =>
        m.deliver seg (ascii "disconnect")
    else
      written .await m (m.seg.send 0 e.line.bytes) fun seg => m.deliver seg e.line.bytes
  | .await, m, _ => some (.look, m, .wait .client)
  | .look, m, _ =>
    some (if m.seg.text REPLY = ascii "password required" then .password
      else reaction (m.seg.text REPLY), m, .skip)
  | .password, m, e =>
    written .passwordWait m (m.seg.typePassword e.line.bytes) fun seg => { m with seg }
  | .passwordWait, m, _ => some (.lookAgain, m, .wait .client)
  | .lookAgain, m, _ => some (reaction (m.seg.text REPLY), m, .skip)
  | .grantedWait, m, _ => some (.success, m, .wait .client)
  | .success, m, _ =>
    written .prompt m (m.seg.send 0 (ascii "Success")) fun seg => { m with seg }
  | .cleanReply, m, _ => some (.prompt, m.clean REPLY, .skip)
  | .gone, _, _ => none

/-! ## 6. The system -/

inductive Party
  | server
  | refresher
  | client (i : Nat)
deriving DecidableEq

abbrev Place : Party → Type
  | .server => ServerPlace
  | .refresher => RefreshPlace
  | .client _ => ClientPlace

/-- The process numbers of the clients. -/
structure Pids where
  pid : Nat → Int
  pos : ∀ i, 0 < pid i
  range : ∀ i, InRange32 (pid i)

def program (ids : Pids) : Program Party Place Mail Sem Input
  | .server => server
  | .refresher => refresh
  | .client i => client (ids.pid i)

abbrev State : Type := Sys Party Place Mail Sem

def entry : (p : Party) → Place p
  | .server => .test
  | .refresher => .waiting
  | .client _ => .start

def State.init : State := ⟨entry, ⟨Block.zero SEGSIZE, Room.init, [], []⟩, fun _ => 1⟩

def step (ids : Pids) : State → Party × Input → Option State := Sys.step (program ids)

/-- Nothing is left to be done: the segment is empty at the server's test, or the server is gone. -/
def State.Quiet (s : State) : Prop :=
  s.pc .server = .test ∧ s.mem.seg.text 0 = [] ∨ s.pc .server = .exited ∨ s.pc .server = .stopped

/-- Every message that was sent has been processed, once and as it was written, and nothing else. -/
def AllProcessed (s : State) : Prop := s.Quiet → s.mem.processed.Perm s.mem.sent

end Chatroom
end Labs
