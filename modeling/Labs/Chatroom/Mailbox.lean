import Labs.Chatroom.Messages

/-!
# What the segment keeps

When every message of the clients is processed once. The segment holds one message, and no client
looks whether there is one in it, or whether the server is about to clean it, before it writes. So
messages are lost: one client writes over the message of another, that was reported as sent and that
the server has not seen.

A step is `Careful` if it does none of what the processes do nothing to prevent:

* a message is written when the segment is empty and the server is past its last `clean_string` of
  the pass (`Phase.settled`), and it is not the empty line;
* the password, and `Success`, are written while the server will still clean the segment
  (`Phase.dirty`);
* no client cleans the reply area under a message that reaches into it;
* the server splits a message with `PID` in it when there is a second word, and a place for it in
  the user list.

In a run of careful steps, in each phase of the pass of the server the segment holds what `Phase.Holds`
says, the message that is not yet processed or nothing (`State.holds_of_reaches`). `Delivery` draws
from it that nothing is lost.

## Phases

The invariant cannot be one about the segment alone: the same bytes are a message before the server
has looked at them and rubbish afterwards. So it is indexed by how far the server is. A `Phase` says
what the server will still do to the segment in this pass, and `ServerPlace.phase` computes it from
the place and from the flags of the room, which decide where a pass branches.

Of the clients the invariant needs one thing, who stands at `connect`: such a client has written the
first half of its greeting, and the message that it will be is not yet one (`Half`). All other
places of a client count as the same, which keeps the induction over any number of clients from
growing with it (`Phase.Holds.move`).

A step of the server changes the phase and perhaps the segment; a step of a client changes the
segment and perhaps `Half`. The first is one lemma for each kind of place (`split_keeps`,
`askSend_keeps`, …), the second one for each kind of write (`start_keeps`, `deliver_keeps`,
`scribble_keeps`). `Careful` has been found from them: it has one clause for each write that would
not keep `Holds`.
-/

namespace Labs
namespace Chatroom

open Lib

/-! ## 1. Careful steps -/

/-- How far the server is in its pass: past its last `clean_string` (`settled`), before it splits a
    `PID` message (`taking`) or has found out which other it is (`reading`), before a `clean_string`
    that erases what is written now (`dirty`), behind that one with another to come (`clear`), or
    gone (`finished`). -/
inductive Phase
  | settled
  | taking
  | reading
  | dirty
  | clear
  | finished
deriving DecidableEq

/-- Past the last `clean_string`, if the administrator is not asked for a line. -/
def Room.done (r : Room) : Phase := if r.respFlag then .settled else .clear

/-- The data is sent if `yes_pswd` is set, and then the segment is cleaned. -/
def Room.replied (r : Room) (without : Phase) : Phase := if r.yesPswd then .dirty else without

def ServerPlace.phase (r : Room) : ServerPlace → Phase
  | .test | .finish => .settled
  | .tryWait | .ifPid | .split => .taking
  | .ifRequest | .ifDisconnect | .showDisconnect | .showChat => .reading
  | .cleanFirst _ _ | .cleanSecond _ | .cleanPid | .cleanRequest | .cleanDisconnect
  | .cleanChat | .answer | .cleanAnswer => .dirty
  | .postPid | .closing => r.done
  | .compare => r.replied .clear
  | .switched => r.replied r.done
  | .say _ behind =>
    match behind with
    | .countdown | .switched => r.replied .clear
    | .answer => .dirty
    | .cleanLast | .exited => .clear
  | .posted behind =>
    match behind with
    | .countdown => r.replied .clear
    | .switched => r.replied r.done
    | .answer => .dirty
    | .cleanLast | .exited => .clear
  | .askSend | .askRequire | .cleanReply | .sayLine _ _ | .cleanLast => .clear
  | .exited | .stopped => .finished

def ServerPlace.Careful (m : Mail) (pc : ServerPlace) : Prop :=
  pc = .split → m.seg.split.isOk ∧ (connect (turnAt m.seg) m.room).isOk

def ClientPlace.Careful (phase : Phase) (m : Mail) (e : Input) : ClientPlace → Prop
  | .start => phase = .settled ∧ m.seg.text 0 = []
  | .prompt => phase = .settled ∧ m.seg.text 0 = [] ∧ e.line.bytes ≠ []
  | .password | .success => phase = .dirty
  | .cleanReply => phase = .dirty ∨ (m.seg.text 0).length ≤ REPLY
  | _ => True

def State.phase (s : State) : Phase := ServerPlace.phase s.mem.room (s.pc .server)

def Careful (s : State) : Party × Input → Prop
  | (.server, _) => ServerPlace.Careful s.mem (s.pc .server)
  | (.refresher, _) => True
  | (.client i, e) => ClientPlace.Careful s.phase s.mem e (s.pc (.client i))

instance (m : Mail) (pc : ServerPlace) : Decidable (pc.Careful m) :=
  inferInstanceAs (Decidable (_ → _))

instance (phase : Phase) (m : Mail) (e : Input) :
    (pc : ClientPlace) → Decidable (pc.Careful phase m e)
  | .start => inferInstanceAs (Decidable (_ ∧ _))
  | .prompt => inferInstanceAs (Decidable (_ ∧ _ ∧ _))
  | .password | .success => inferInstanceAs (Decidable (_ = _))
  | .cleanReply => inferInstanceAs (Decidable (_ ∨ _))
  | .connect | .firstWait | .secondWait | .await | .look | .passwordWait | .lookAgain
  | .grantedWait | .gone => inferInstanceAs (Decidable True)

instance (s : State) (a : Party × Input) : Decidable (Careful s a) :=
  match a with
  | (.server, _) => inferInstanceAs (Decidable (ServerPlace.Careful _ _))
  | (.refresher, _) => inferInstanceAs (Decidable True)
  | (.client _, _) => inferInstanceAs (Decidable (ClientPlace.Careful _ _ _ _))

/-! ## 2. What the segment holds -/

section Holds

variable {clients : Nat → ClientPlace} {m m' : Mail} {phase : Phase}

/-- Nothing is to be processed, and no client has written the first half of `PID` and a number. -/
def Served (clients : Nat → ClientPlace) (m : Mail) : Prop :=
  (∀ i, clients i ≠ .connect) ∧ m.sent = m.processed

def Clear (clients : Nat → ClientPlace) (m : Mail) : Prop :=
  Served clients m ∧ m.seg.text 0 = []

/-- The segment holds the last message, which is not processed yet. -/
def Full (clients : Nat → ClientPlace) (m : Mail) : Prop :=
  (∀ i, clients i ≠ .connect) ∧ m.seg.text 0 ≠ [] ∧ m.sent = m.processed ++ [m.seg.text 0]

/-- One client has written the first half. -/
def Half (clients : Nat → ClientPlace) (m : Mail) : Prop :=
  (∃ i, ∀ j, clients j = .connect ↔ j = i) ∧ m.seg.text 0 = ascii "PID " ∧ m.sent = m.processed

def Phase.Holds (clients : Nat → ClientPlace) (m : Mail) : Phase → Prop
  | .settled => Clear clients m ∨ Full clients m ∨ Half clients m
  | .taking => Full clients m ∨ Half clients m
  | .reading => Full clients m
  | .dirty => Served clients m
  | .clear => Clear clients m
  | .finished => Served clients m

/-- The phases in which there may be nothing in the segment. -/
def Phase.MayBeEmpty (phase : Phase) : Prop := phase ≠ .taking ∧ phase ≠ .reading

theorem Room.done_mayBeEmpty (r : Room) : r.done.MayBeEmpty := by
  unfold done
  split
  · exact ⟨nofun, nofun⟩
  · exact ⟨nofun, nofun⟩

theorem Room.replied_mayBeEmpty (r : Room) (h : phase.MayBeEmpty) :
    (r.replied phase).MayBeEmpty := by
  unfold replied
  split
  · exact ⟨nofun, nofun⟩
  · exact h

theorem Phase.clear_mayBeEmpty : Phase.clear.MayBeEmpty := ⟨nofun, nofun⟩

theorem ServerPlace.posted_mayBeEmpty (r : Room) (behind : Behind) :
    (ServerPlace.phase r (.posted behind)).MayBeEmpty := by
  cases behind with
  | countdown => exact r.replied_mayBeEmpty Phase.clear_mayBeEmpty
  | switched => exact r.replied_mayBeEmpty r.done_mayBeEmpty
  | answer => exact ⟨nofun, nofun⟩
  | cleanLast => exact ⟨nofun, nofun⟩
  | exited => exact ⟨nofun, nofun⟩

theorem Clear.holds (h : Clear clients m) (hphase : phase.MayBeEmpty) :
    phase.Holds clients m := by
  cases phase with
  | settled => exact .inl h
  | taking => exact absurd rfl hphase.1
  | reading => exact absurd rfl hphase.2
  | dirty => exact h.1
  | clear => exact h
  | finished => exact h.1

/-- Only the text and the two lists count. -/
theorem Phase.Holds.congr (h : phase.Holds clients m) (htext : m'.seg.text 0 = m.seg.text 0)
    (hsent : m'.sent = m.sent) (hprocessed : m'.processed = m.processed) :
    phase.Holds clients m' := by
  cases phase <;> simpa only [Holds, Clear, Full, Half, Served, htext, hsent, hprocessed] using h

theorem Served.clean (h : Served clients m) : Clear clients (m.clean 0) :=
  ⟨h, Segment.text_clean_zero m.seg⟩

theorem Full.process (h : Full clients m) : Served clients m.process := ⟨h.1, h.2.2⟩

theorem Half.ne_nil (h : Half clients m) : m.seg.text 0 ≠ [] := by
  rw [h.2.1]
  decide

/-- The half is found to be a `PID`… -/
theorem Half.strstr (h : Half clients m) : strstr m.seg.bytes (ascii "PID") = true := by
  have htext : cstr m.seg.bytes = ascii "PID " := h.2.1
  unfold Lib.strstr
  rw [htext]
  decide

/-- …and has no second word. -/
theorem Half.split (h : Half clients m) : m.seg.split = .error .nullDeref := by
  unfold Segment.split
  rw [h.2.1]
  rfl

end Holds

/-! ## 3. The steps -/

section Server

variable {clients : Nat → ClientPlace} {m m' : Mail} {e : Input} {pc pc' : ServerPlace}
  {op : SemOp Sem}

theorem ServerPlace.say_phase (r : Room) (reply : Reply) (behind : Behind) :
    ServerPlace.phase r (.say reply behind) = .dirty ∧
        ServerPlace.phase r (.posted behind) = .dirty ∨
      ServerPlace.phase r (.say reply behind) = .clear := by
  by_cases hyes : r.yesPswd = true
  · cases behind <;> simp [phase, Room.replied, hyes]
  · cases behind <;> simp [phase, Room.replied, hyes]

/-- A reply leaves the text alone where there is none; where there is one, it is not looked at. -/
theorem afterReply_keeps {phase : Phase} {behind : Behind} {seg : Option Segment}
    (hholds : phase.Holds clients m)
    (hphase : phase = .dirty ∧ ServerPlace.phase m.room (.posted behind) = .dirty ∨
      phase = .clear)
    (hseg : ∀ seg', seg = some seg' → m.seg.text 0 = [] → seg'.text 0 = [])
    (h : afterReply m behind seg = some (pc', m', op)) :
    (pc'.phase m'.room).Holds clients m' := by
  cases seg with
  | none =>
    cases h
    rcases hphase with ⟨rfl, -⟩ | rfl
    · exact hholds
    · exact hholds.1
  | some seg =>
    cases h
    rcases hphase with ⟨rfl, hposted⟩ | rfl
    · show (ServerPlace.phase m.room (.posted behind)).Holds clients { m with seg }
      rw [hposted]
      exact hholds
    · have hclear : Clear clients { m with seg } := ⟨hholds.1, hseg seg rfl hholds.2⟩
      exact hclear.holds (ServerPlace.posted_mayBeEmpty m.room behind)

/-- `connect` goes through, and takes the message: the half of a `PID` has no second word. -/
theorem split_keeps (hholds : Full clients m ∨ Half clients m)
    (hcareful : ServerPlace.Careful m .split) (h : server .split m e = some (pc', m', op)) :
    (pc'.phase m'.room).Holds clients m' := by
  obtain ⟨hsplit, hconnect⟩ := hcareful rfl
  have hfull : Full clients m := by
    rcases hholds with hfull | hhalf
    · exact hfull
    · rw [hhalf.split] at hsplit
      cases hsplit
  rw [server] at h
  cases hwords : m.seg.split with
  | error stop =>
    rw [hwords] at hsplit
    cases hsplit
  | ok words =>
    cases hroom : connect (turnAt m.seg) m.room with
    | error stop =>
      rw [hroom] at hconnect
      cases hconnect
    | ok room =>
      rw [hwords, hroom] at h
      cases h
      exact hfull.process

/-- The two questions behind `request data` leave the segment clear. -/
theorem askSend_keeps (hclear : Clear clients m) (h : server .askSend m e = some (pc', m', op)) :
    (pc'.phase m'.room).Holds clients m' := by
  rw [server] at h
  split at h
  · cases h
    exact hclear
  · split at h
    · cases h
      exact hclear.holds (Room.replied_mayBeEmpty _ Phase.clear_mayBeEmpty)
    · cases h
      exact hclear.holds (Room.replied_mayBeEmpty _ (Room.done_mayBeEmpty _))

theorem askRequire_keeps (hclear : Clear clients m)
    (h : server .askRequire m e = some (pc', m', op)) : (pc'.phase m'.room).Holds clients m' := by
  rw [server] at h
  split at h
  -- `yes_pswd` is set in both branches that reply
  · cases h
    exact hclear.1
  · split at h
    · cases h
      exact hclear.1
    · cases h
      exact hclear.holds (Room.replied_mayBeEmpty _ (Room.done_mayBeEmpty _))

theorem closing_keeps (hholds : (ServerPlace.phase m.room .closing).Holds clients m)
    (h : server .closing m e = some (pc', m', op)) : (pc'.phase m'.room).Holds clients m' := by
  rw [server] at h
  rw [ServerPlace.phase, Room.done] at hholds
  split at h
  · rename_i hresp
    rw [if_pos hresp] at hholds
    cases h
    exact hholds
  · rename_i hresp
    rw [if_neg hresp] at hholds
    split at h
    · cases h
      exact hholds
    · cases h
      exact hholds

/-- **A step of the server.** -/
theorem server_keeps (hholds : (pc.phase m.room).Holds clients m) (hcareful : pc.Careful m)
    (h : server pc m e = some (pc', m', op)) : (pc'.phase m'.room).Holds clients m' := by
  cases pc with
  -- these look at nothing, or only whether there is something
  | tryWait | cleanFirst first second | cleanSecond second | postPid | answer | finish =>
    cases h
    exact hholds
  | test =>
    cases h
    split
    · exact hholds
    · rename_i hne
      rcases hholds with hclear | hfull | hhalf
      · exact absurd hclear.2 hne
      · exact .inl hfull
      · exact .inr hhalf
  | ifPid =>
    cases h
    split
    · exact hholds
    · rename_i hno
      rcases hholds with hfull | hhalf
      · exact hfull
      · exact absurd hhalf.strstr hno
  | split => exact split_keeps hholds hcareful h
  | ifRequest =>
    rw [server] at h
    split at h
    · cases h
      exact Full.process hholds
    · cases h
      exact hholds
  | ifDisconnect =>
    cases h
    split
    · exact hholds
    · exact hholds
  -- the message is taken
  | showDisconnect | showChat =>
    cases h
    exact Full.process hholds
  -- the segment is cleaned
  | cleanPid | cleanChat =>
    cases h
    exact (Served.clean hholds).holds m.room.done_mayBeEmpty
  | cleanRequest | cleanAnswer =>
    cases h
    exact Served.clean hholds
  | cleanDisconnect =>
    rw [server] at h
    split at h
    · cases h
      exact hholds
    · cases h
      exact (Served.clean hholds).holds (Room.done_mayBeEmpty _)
  | cleanReply =>
    cases h
    have htext : (m.clean REPLY).seg.text 0 = m.seg.text 0 :=
      Segment.text_clean (by rw [hholds.2]; exact Nat.zero_le _)
    exact Clear.holds ⟨hholds.1, htext.trans hholds.2⟩ m.room.done_mayBeEmpty
  | cleanLast =>
    cases h
    exact (Served.clean hholds.1).holds ⟨nofun, nofun⟩
  | askSend => exact askSend_keeps hholds h
  | askRequire => exact askRequire_keeps hholds h
  -- the replies
  | say reply behind =>
    exact afterReply_keeps hholds (ServerPlace.say_phase m.room reply behind)
      (fun _ hseg hnil => Segment.text_reply hnil hseg) h
  | sayLine reply behind =>
    have hlt : (m.seg.text 0).length < REPLY := by
      rw [hholds.2]
      decide
    exact afterReply_keeps hholds (.inr rfl)
      (fun _ hseg hnil => (Segment.text_send hseg hlt).trans hnil) h
  | posted behind =>
    cases h
    cases behind with
    | countdown | switched | answer | cleanLast => exact hholds
    | exited => exact hholds.1
  | compare =>
    rw [server] at h
    split at h
    · cases h
      exact hholds
    · cases h
      exact hholds
  | switched =>
    cases h
    split
    · rename_i hyes
      rw [ServerPlace.phase, Room.replied, if_pos hyes] at hholds
      exact hholds
    · rename_i hno
      rw [ServerPlace.phase, Room.replied, if_neg hno] at hholds
      exact hholds
  | closing => exact closing_keeps hholds h
  | exited | stopped => cases h

end Server

section Client

variable {clients : Nat → ClientPlace} {m m' : Mail} {e : Input} {phase : Phase} {i : Nat}
  {pid : Int} {pc pc' : ClientPlace} {op : SemOp Sem}

/-- Of the places of the clients it counts who is at `connect`. -/
theorem Phase.Holds.move (h : phase.Holds clients m) (hfrom : clients i ≠ .connect)
    (hto : pc' ≠ .connect) : phase.Holds (Function.update clients i pc') m := by
  have hsame : ∀ j, Function.update clients i pc' j = .connect ↔ clients j = .connect := by
    intro j
    by_cases hj : j = i
    · subst hj
      rw [Function.update_self]
      exact ⟨fun hpc => absurd hpc hto, fun hpc => absurd hpc hfrom⟩
    · rw [Function.update_of_ne hj]
  cases phase <;> simpa only [Holds, Clear, Full, Half, Served, ne_eq, hsame] using h

theorem Phase.Holds.clear (h : Phase.settled.Holds clients m) (hnil : m.seg.text 0 = []) :
    Clear clients m := by
  rcases h with hclear | hfull | hhalf
  · exact hclear
  · exact absurd hnil hfull.2.1
  · exact absurd hnil hhalf.ne_nil

/-- Where a client has written the first half, it may write the second. -/
theorem Phase.Holds.half (h : phase.Holds clients m) (hpc : clients i = .connect) :
    Half clients m ∧ ∀ clients m, Full clients m → phase.Holds clients m := by
  cases phase with
  | settled =>
    rcases h with hclear | hfull | hhalf
    · exact absurd hpc (hclear.1.1 i)
    · exact absurd hpc (hfull.1 i)
    · exact ⟨hhalf, fun _ _ hfull => .inr (.inl hfull)⟩
  | taking =>
    rcases h with hfull | hhalf
    · exact absurd hpc (hfull.1 i)
    · exact ⟨hhalf, fun _ _ hfull => .inl hfull⟩
  | reading => exact absurd hpc (h.1 i)
  | dirty => exact absurd hpc (h.1 i)
  | clear => exact absurd hpc (h.1.1 i)
  | finished => exact absurd hpc (h.1 i)

theorem start_keeps (hclear : Clear clients m)
    (h : client pid .start m e = some (pc', m', op)) :
    Phase.settled.Holds (Function.update clients i pc') m' ∧ m'.room = m.room := by
  rw [client] at h
  cases hseg : m.seg.copy 0 (ascii "PID ") with
  | none =>
    rw [hseg] at h
    cases h
    exact ⟨Phase.Holds.move (.inl hclear) (hclear.1.1 i) nofun, rfl⟩
  | some seg =>
    rw [hseg] at h
    cases h
    have htext : seg.text 0 = ascii "PID " := Segment.text_copy_zero (by decide) hseg
    refine ⟨.inr (.inr ⟨⟨i, fun j => ?_⟩, htext, hclear.1.2⟩), rfl⟩
    by_cases hj : j = i
    · subst hj
      rw [Function.update_self]
      exact ⟨fun _ => rfl, fun _ => rfl⟩
    · rw [Function.update_of_ne hj]
      exact ⟨fun hpc => absurd hpc (hclear.1.1 j), fun hji => absurd hji hj⟩

theorem connect_keeps (hholds : phase.Holds clients m) (hpc : clients i = .connect)
    (hpos : 0 < pid) (hrange : InRange32 pid)
    (h : client pid .connect m e = some (pc', m', op)) :
    phase.Holds (Function.update clients i pc') m' ∧ m'.room = m.room := by
  obtain ⟨⟨⟨k, hone⟩, htext, hsame⟩, hfull⟩ := hholds.half hpc
  have hik : i = k := (hone i).mp hpc
  have hdigits := length_decimal_le hpos hrange
  have hfits : (m.seg.text 0).length + (decimal pid ++ [NUL]).length ≤ SEGSIZE := by
    rw [htext, List.length_append, List.length_singleton]
    show 4 + ((decimal pid).length + 1) ≤ 4096
    omega
  obtain ⟨seg, hseg⟩ := Block.write_of_le hfits
  have hcopy : m.seg.copy (m.seg.text 0).length (decimal pid) = some seg := hseg
  rw [client, hcopy] at h
  cases h
  have hnew : Segment.text seg 0 = ascii "PID " ++ decimal pid := by
    rw [Segment.text_copy_end (decimal_nul_free pid) hcopy, htext]
  refine ⟨hfull _ _ ⟨fun j => ?_, ?_, ?_⟩, rfl⟩
  · by_cases hj : j = i
    · subst hj
      rw [Function.update_self]
      exact nofun
    · rw [Function.update_of_ne hj]
      intro hjc
      exact hj (((hone j).mp hjc).trans hik.symm)
  · show Segment.text seg 0 ≠ []
    rw [hnew]
    exact fun hnil => absurd (List.append_eq_nil_iff.mp hnil).1 (by decide)
  · show m.sent ++ [ascii "PID " ++ decimal pid] = m.processed ++ [Segment.text seg 0]
    rw [hsame, hnew]

/-- A message is written to an empty segment. -/
theorem deliver_keeps {text : List UInt8} (hclear : Clear clients m)
    (h : written pc m (m.seg.send 0 text) (fun seg => m.deliver seg text) = some (pc', m', op))
    (hnul : NUL ∉ text) (hne : text ≠ []) (hpc : pc ≠ .connect) :
    Phase.settled.Holds (Function.update clients i pc') m' ∧ m'.room = m.room := by
  cases hseg : m.seg.send 0 text with
  | none =>
    rw [hseg] at h
    cases h
    exact ⟨Phase.Holds.move (.inl hclear) (hclear.1.1 i) nofun, rfl⟩
  | some seg =>
    rw [hseg] at h
    cases h
    have htext : Segment.text seg 0 = text := Segment.text_send_zero hnul hseg
    have hfull : Full clients (m.deliver seg text) := by
      refine ⟨hclear.1.1, ?_, ?_⟩
      · show Segment.text seg 0 ≠ []
        rw [htext]
        exact hne
      · show m.sent ++ [text] = m.processed ++ [Segment.text seg 0]
        rw [hclear.1.2, htext]
    exact ⟨Phase.Holds.move (.inr (.inl hfull)) (hclear.1.1 i) hpc, rfl⟩

/-- What is no message is written while the segment will still be cleaned. -/
theorem scribble_keeps {seg : Option Segment} (hserved : Served clients m)
    (h : written pc m seg (fun seg => { m with seg }) = some (pc', m', op))
    (hpc : pc ≠ .connect) :
    Phase.dirty.Holds (Function.update clients i pc') m' ∧ m'.room = m.room := by
  have moves : ∀ {m : Mail} {pc : ClientPlace}, Served clients m → pc ≠ .connect →
      Phase.dirty.Holds (Function.update clients i pc) m :=
    fun {m _} hserved hto =>
      (show Phase.dirty.Holds clients m from hserved).move (hserved.1 i) hto
  cases seg with
  | none =>
    cases h
    exact ⟨moves hserved nofun, rfl⟩
  | some seg =>
    cases h
    exact ⟨moves hserved hpc, rfl⟩

theorem reaction_ne_connect (reply : List UInt8) : reaction reply ≠ .connect := by
  unfold reaction
  split
  · exact nofun
  · split
    · exact nofun
    · split <;> exact nofun

theorem client_keeps (hholds : phase.Holds clients m)
    (hcareful : ClientPlace.Careful phase m e (clients i)) (hpos : 0 < pid)
    (hrange : InRange32 pid) (h : client pid (clients i) m e = some (pc', m', op)) :
    phase.Holds (Function.update clients i pc') m' ∧ m'.room = m.room := by
  -- a step that changes nothing but the place
  have moves : ∀ {pc pc'}, clients i = pc → pc ≠ .connect → pc' ≠ .connect →
      phase.Holds (Function.update clients i pc') m ∧ m.room = m.room :=
    fun hi hfrom hto => ⟨hholds.move (hi ▸ hfrom) hto, rfl⟩
  cases hi : clients i with
  | start =>
    rw [hi] at hcareful h
    obtain ⟨rfl, hnil⟩ := hcareful
    exact start_keeps (hholds.clear hnil) h
  | connect =>
    rw [hi] at h
    exact connect_keeps hholds hi hpos hrange h
  | firstWait =>
    rw [hi] at h
    cases h
    exact moves hi nofun nofun
  | secondWait =>
    rw [hi] at h
    cases h
    exact moves hi nofun nofun
  | prompt =>
    rw [hi] at hcareful h
    obtain ⟨rfl, hnil, hline⟩ := hcareful
    rw [client] at h
    split at h
    · exact deliver_keeps (hholds.clear hnil) h (by decide) (by decide) nofun
    · exact deliver_keeps (hholds.clear hnil) h e.line.plain.1 hline nofun
  | await =>
    rw [hi] at h
    cases h
    exact moves hi nofun nofun
  | look =>
    rw [hi] at h
    cases h
    refine moves hi nofun ?_
    split
    · exact nofun
    · exact reaction_ne_connect _
  | password =>
    rw [hi] at hcareful h
    obtain rfl : phase = .dirty := hcareful
    rw [client] at h
    exact scribble_keeps hholds h nofun
  | passwordWait =>
    rw [hi] at h
    cases h
    exact moves hi nofun nofun
  | lookAgain =>
    rw [hi] at h
    cases h
    exact moves hi nofun (reaction_ne_connect _)
  | grantedWait =>
    rw [hi] at h
    cases h
    exact moves hi nofun nofun
  | success =>
    rw [hi] at hcareful h
    obtain rfl : phase = .dirty := hcareful
    rw [client] at h
    exact scribble_keeps hholds h nofun
  | cleanReply =>
    rw [hi] at hcareful h
    cases h
    have hmoved := hholds.move (hi ▸ nofun : clients i ≠ .connect)
      (nofun : ClientPlace.prompt ≠ .connect)
    rcases hcareful with rfl | hle
    · exact ⟨hmoved, rfl⟩
    · exact ⟨hmoved.congr (Segment.text_clean hle) rfl rfl, rfl⟩
  | gone =>
    rw [hi] at h
    cases h

end Client

/-! ## 4. The runs -/

def State.clients (s : State) (i : Nat) : ClientPlace := s.pc (.client i)

def State.Holds (s : State) : Prop := s.phase.Holds s.clients s.mem

theorem State.init_holds : State.init.Holds := by
  refine .inl ⟨⟨fun i => nofun, rfl⟩, ?_⟩
  show cstr (Block.zero SEGSIZE).bytes = []
  decide

theorem State.step_holds {ids : Pids} {s s' : State} {a : Party × Input} (hholds : s.Holds)
    (hcareful : Careful s a) (h : step ids s a = some s') : s'.Holds := by
  obtain ⟨party, e⟩ := a
  obtain ⟨pc, m, op, sem, hnext, -, rfl⟩ := Sys.step_cases h
  cases party with
  | server => exact server_keeps hholds hcareful hnext
  | refresher =>
    have hm : m = s.mem := by
      cases hplace : s.pc .refresher with
      | waiting =>
        rw [hplace] at hnext
        cases hnext
        rfl
      | showing =>
        rw [hplace] at hnext
        cases hnext
        rfl
    subst hm
    exact hholds
  | client i =>
    obtain ⟨hkept, hroom⟩ := client_keeps hholds hcareful (ids.pos i) (ids.range i) hnext
    have hclients : State.clients ⟨Function.update s.pc (.client i) pc, m, sem⟩ =
        Function.update s.clients i pc := by
      funext j
      by_cases hj : j = i
      · subst hj
        rw [Function.update_self]
        exact Function.update_self _ _ _
      · rw [Function.update_of_ne hj]
        exact Function.update_of_ne (fun heq => hj (Party.client.inj heq)) _ _
    unfold State.Holds State.phase
    rw [hclients]
    show (ServerPlace.phase m.room (s.pc .server)).Holds _ m
    rw [hroom]
    exact hkept

theorem State.holds_of_reaches {ids : Pids} {s : State}
    (h : Reaches (step ids) Careful State.init s) : s.Holds :=
  h.invariant State.init_holds fun _ _ _ hs hcareful hstep => State.step_holds hs hcareful hstep

end Chatroom
end Labs
