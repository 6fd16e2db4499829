import Labs.Chatroom.Mailbox

/-!
# What becomes of a message

In a run of careful steps the messages that were sent are at any time those that have been processed,
in that order, and perhaps one more, whose text is in the segment (`State.Kept`). That one does not
stay there. No careful step of a client touches it, so each step of the server brings its pass closer
to where it takes the text for what it is (`ServerPlace.ahead`, `server_advances`), ten steps at most;
and the server can make them, for it never waits but for `sem_1`, which only `refresh_chat_room` can
have then and gives back at once (`State.ServerGoesOn`).

`all_processed` is all of that. Without care a message is lost: `message_lost`.

## Safety and progress

That no message is lost has two halves, and they are stated together since neither says much alone.
A server that never looks at the segment loses nothing; and a server that goes on for ever may lose
everything.

* Safety is `State.Kept`: what was sent is what was processed, but for one message, which is the
  text in the segment. It is read off the invariant of `Mailbox`.
* Progress is about the steps of the server alone. `ServerPlace.ahead` counts those up to the one
  that processes the message; each of its steps lowers it, and steps of the others do not raise it
  (`pending_step`), since a client touches neither the room nor the place of the server. So ten
  steps are enough, wherever in the run they are made (`processed_of_run`).

Whether the server can make them is a matter of `sem_1`, which `refresh_chat_room` takes as well.
There is one token for the two of them (`State.RoomKept`), and `refresh_chat_room` gives it back in
its next step (`State.ServerGoesOn`). That the scheduler lets the server run is not proved and not
asked: the bound is on its steps.

Care is a condition on the steps, not something that the programs see to. A run in which a second
client does not wait shows what happens otherwise (`message_lost`).
-/

namespace Labs
namespace Chatroom

open Lib

/-! ## 1. A step of the server -/

section Server

variable {clients : Nat → ClientPlace} {m m' : Mail} {e : Input} {pc pc' : ServerPlace}
  {op : SemOp Sem}

/-- Between `try_wait` and the `sem_post` behind a pass. A server that is gone has kept `sem_1`. -/
def ServerPlace.taken : ServerPlace → Int
  | .test | .tryWait => 0
  | _ => 1

/-- What a step of the server does to the lists and to `sem_1`. -/
structure ServerStep (m m' : Mail) (pc pc' : ServerPlace) (op : SemOp Sem) : Prop where
  sent : m'.sent = m.sent
  processed : m'.processed = m.processed ∨ m'.processed = m.processed ++ [m.seg.text 0]
  room : op = .wait .room ∧ pc = .tryWait ∧ pc' = .ifPid ∨ op = .post .room ∧ pc = .finish ∧ pc' = .test ∨
    (op = .skip ∨ op = .post .client) ∧ pc'.taken = pc.taken

theorem ServerStep.of_skip (hsent : m'.sent = m.sent) (hprocessed : m'.processed = m.processed)
    (htaken : pc'.taken = pc.taken) : ServerStep m m' pc pc' .skip :=
  ⟨hsent, .inl hprocessed, .inr (.inr ⟨.inl rfl, htaken⟩)⟩

theorem ServerStep.of_process (hsent : m'.sent = m.sent)
    (hprocessed : m'.processed = m.processed ++ [m.seg.text 0]) (htaken : pc'.taken = pc.taken) :
    ServerStep m m' pc pc' .skip :=
  ⟨hsent, .inr hprocessed, .inr (.inr ⟨.inl rfl, htaken⟩)⟩

theorem Behind.taken (behind : Behind) : behind.place.taken = 1 := by
  cases behind <;> rfl

theorem afterReply_step {behind : Behind} {seg : Option Segment} (hpc : pc.taken = 1)
    (h : afterReply m behind seg = some (pc', m', op)) : ServerStep m m' pc pc' op := by
  cases seg with
  | none =>
    cases h
    exact .of_skip rfl rfl hpc.symm
  | some seg =>
    cases h
    exact .of_skip rfl rfl hpc.symm

theorem server_step (h : server pc m e = some (pc', m', op)) : ServerStep m m' pc pc' op := by
  cases pc with
  | cleanFirst first second | cleanSecond second | cleanPid | cleanRequest | answer | cleanAnswer
  | cleanReply | cleanChat | cleanLast =>
    cases h
    exact .of_skip rfl rfl rfl
  | tryWait =>
    cases h
    exact ⟨rfl, .inl rfl, .inl ⟨rfl, rfl, rfl⟩⟩
  | finish =>
    cases h
    exact ⟨rfl, .inl rfl, .inr (.inl ⟨rfl, rfl, rfl⟩)⟩
  | postPid =>
    cases h
    exact ⟨rfl, .inl rfl, .inr (.inr ⟨.inr rfl, rfl⟩)⟩
  | posted behind =>
    cases h
    exact ⟨rfl, .inl rfl, .inr (.inr ⟨.inr rfl, behind.taken⟩)⟩
  | test | ifPid | switched | ifDisconnect =>
    cases h
    refine .of_skip rfl rfl ?_
    split <;> rfl
  | showDisconnect | showChat =>
    cases h
    exact .of_process rfl rfl rfl
  | split =>
    rw [server] at h
    split at h
    · cases h
      exact .of_process rfl rfl rfl
    · cases h
      exact .of_skip rfl rfl rfl
  | ifRequest =>
    rw [server] at h
    split at h
    · cases h
      exact .of_process rfl rfl rfl
    · cases h
      exact .of_skip rfl rfl rfl
  | askSend | askRequire | closing =>
    rw [server] at h
    split at h
    · cases h
      exact .of_skip rfl rfl rfl
    · split at h
      · cases h
        exact .of_skip rfl rfl rfl
      · cases h
        exact .of_skip rfl rfl rfl
  | compare =>
    rw [server] at h
    split at h
    · cases h
      exact .of_skip rfl rfl rfl
    · cases h
      exact .of_skip rfl rfl rfl
  | cleanDisconnect =>
    rw [server] at h
    split at h
    · cases h
      exact .of_skip rfl rfl rfl
    · cases h
      exact .of_skip rfl rfl rfl
  | say reply behind => exact afterReply_step rfl h
  | sayLine reply behind => exact afterReply_step rfl h
  | exited | stopped => cases h

/-- Until it is gone the server has something to do. -/
theorem exists_server (hpc : pc ≠ .exited ∧ pc ≠ .stopped) (m : Mail) (e : Input) :
    ∃ r, server pc m e = some r := by
  cases pc with
  | exited => exact absurd rfl hpc.1
  | stopped => exact absurd rfl hpc.2
  | say reply behind | sayLine reply behind =>
    rw [server]
    unfold afterReply
    split <;> exact ⟨_, rfl⟩
  | split | ifRequest | compare | cleanDisconnect =>
    rw [server]
    split <;> exact ⟨_, rfl⟩
  | askSend | askRequire | closing =>
    rw [server]
    split
    · exact ⟨_, rfl⟩
    · split <;> exact ⟨_, rfl⟩
  | _ => exact ⟨_, rfl⟩

/-! ## 2. How far a message is from being processed -/

/-- The phases in which the segment may hold a message that is not processed. -/
def Phase.Open (phase : Phase) : Prop := phase = .settled ∨ phase = .taking ∨ phase = .reading

theorem Phase.Open.ne (h : Phase.Open phase) :
    phase ≠ .dirty ∧ phase ≠ .clear ∧ phase ≠ .finished := by
  rcases h with rfl | rfl | rfl
  · exact ⟨by decide, by decide, by decide⟩
  · exact ⟨by decide, by decide, by decide⟩
  · exact ⟨by decide, by decide, by decide⟩

/-- What is not processed is in the segment. -/
theorem Phase.Holds.full {phase : Phase} (h : phase.Holds clients m)
    (hne : m.sent ≠ m.processed) : phase.Open ∧ Full clients m := by
  cases phase with
  | settled =>
    rcases h with hclear | hfull | hhalf
    · exact absurd hclear.1.2 hne
    · exact ⟨.inl rfl, hfull⟩
    · exact absurd hhalf.2.2 hne
  | taking =>
    rcases h with hfull | hhalf
    · exact ⟨.inr (.inl rfl), hfull⟩
    · exact absurd hhalf.2.2 hne
  | reading => exact ⟨.inr (.inr rfl), h⟩
  | dirty => exact absurd h.2 hne
  | clear => exact absurd h.1.2 hne
  | finished => exact absurd h.2 hne

/-- The steps of the server up to the one that processes the message. -/
def ServerPlace.ahead : ServerPlace → Nat
  | .split | .showDisconnect | .showChat => 1
  | .ifDisconnect => 2
  | .ifRequest => 3
  | .ifPid => 4
  | .tryWait => 5
  | .test => 6
  | .finish => 7
  | .closing => 8
  | .postPid | .switched => 9
  | _ => 10

theorem ServerPlace.ahead_pos (pc : ServerPlace) : 0 < pc.ahead := by
  unfold ahead
  split <;> decide

theorem ServerPlace.ahead_le (pc : ServerPlace) : pc.ahead ≤ 10 := by
  unfold ahead
  split <;> decide

theorem Room.not_open_replied_clear (r : Room) : ¬ (r.replied .clear).Open := by
  unfold Room.replied
  split
  · exact fun h => h.ne.1 rfl
  · exact fun h => h.ne.2.1 rfl

/-- **A step of the server processes the message, or brings it closer to that.** -/
theorem server_advances (hfull : Full clients m) (hopen : (pc.phase m.room).Open)
    (hcareful : pc.Careful m) (h : server pc m e = some (pc', m', op)) :
    m'.processed = m.processed ++ [m.seg.text 0] ∨ pc'.ahead < pc.ahead := by
  cases pc with
  | test =>
    cases h
    rw [if_neg hfull.2.1]
    exact .inr (by decide)
  | ifPid | ifDisconnect =>
    cases h
    split <;> exact .inr (by decide)
  | tryWait | postPid | finish =>
    cases h
    exact .inr (by decide)
  | showDisconnect | showChat =>
    cases h
    exact .inl rfl
  | split =>
    obtain ⟨hsplit, hconnect⟩ := hcareful rfl
    rw [server] at h
    cases hwords : m.seg.split with
    | error stop =>
      rw [hwords] at hsplit
      cases hsplit
    | ok words =>
      cases hroom : connect (turnAt m.seg) m.room with
      | error stop =>
        rw [hroom] at hconnect
        cases hconnect
      | ok room =>
        rw [hwords, hroom] at h
        cases h
        exact .inl rfl
  | ifRequest =>
    rw [server] at h
    split at h
    · cases h
      exact .inl rfl
    · cases h
      exact .inr (by decide)
  | switched =>
    cases h
    split
    · rename_i hyes
      refine absurd ?_ hopen.ne.1
      rw [ServerPlace.phase, Room.replied, if_pos hyes]
    · exact .inr (by decide)
  | closing =>
    rw [server] at h
    split at h
    · cases h
      exact .inr (by decide)
    · rename_i hresp
      refine absurd ?_ hopen.ne.2.1
      rw [ServerPlace.phase, Room.done, if_neg hresp]
  | posted behind =>
    cases behind with
    | switched =>
      cases h
      exact .inr (by decide)
    | countdown => exact absurd hopen m.room.not_open_replied_clear
    | answer => exact absurd rfl hopen.ne.1
    | cleanLast | exited => exact absurd rfl hopen.ne.2.1
  | say reply behind =>
    rcases ServerPlace.say_phase m.room reply behind with ⟨hsay, -⟩ | hsay
    · exact absurd hsay hopen.ne.1
    · exact absurd hsay hopen.ne.2.1
  | compare => exact absurd hopen m.room.not_open_replied_clear
  | cleanFirst first second | cleanSecond second | cleanPid | cleanRequest | cleanDisconnect
  | cleanChat | answer | cleanAnswer => exact absurd rfl hopen.ne.1
  | askSend | askRequire | cleanReply | sayLine reply behind | cleanLast =>
    exact absurd rfl hopen.ne.2.1
  | exited | stopped => exact absurd rfl hopen.ne.2.2

end Server

/-! ## 3. A step of a client -/

section Client

variable {clients : Nat → ClientPlace} {m m' : Mail} {e : Input} {phase : Phase} {i : Nat}
  {pid : Int} {pc pc' : ClientPlace} {op : SemOp Sem}

/-- What a step of a client does to the lists and to the semaphores. -/
structure ClientStep (m m' : Mail) (pc : ClientPlace) (op : SemOp Sem) : Prop where
  processed : m'.processed = m.processed
  sent : m'.sent = m.sent ∨ pc = .connect ∨ pc = .prompt
  client : op = .skip ∨ op = .wait .client

theorem written_step {place : ClientPlace} {seg : Option Segment} {change : Segment → Mail}
    (h : written place m seg change = some (pc', m', op))
    (hprocessed : ∀ seg, (change seg).processed = m.processed)
    (hsent : (∀ seg, (change seg).sent = m.sent) ∨ pc = .connect ∨ pc = .prompt) :
    ClientStep m m' pc op := by
  cases seg with
  | none =>
    cases h
    exact ⟨rfl, .inl rfl, .inl rfl⟩
  | some seg =>
    cases h
    exact ⟨hprocessed seg, hsent.imp_left fun hsame => hsame seg, .inl rfl⟩

theorem client_step (h : client pid pc m e = some (pc', m', op)) : ClientStep m m' pc op := by
  cases pc with
  | start | password | success =>
    rw [client] at h
    exact written_step h (fun _ => rfl) (.inl fun _ => rfl)
  | connect =>
    rw [client] at h
    exact written_step h (fun _ => rfl) (.inr (.inl rfl))
  | prompt =>
    rw [client] at h
    split at h
    · exact written_step h (fun _ => rfl) (.inr (.inr rfl))
    · exact written_step h (fun _ => rfl) (.inr (.inr rfl))
  | firstWait | secondWait | await | passwordWait | grantedWait =>
    cases h
    exact ⟨rfl, .inl rfl, .inr rfl⟩
  | look | lookAgain | cleanReply =>
    cases h
    exact ⟨rfl, .inl rfl, .inl rfl⟩
  | gone => cases h

/-- While there is a message in the segment nobody sends another. -/
theorem client_sends_nothing (hfull : Full clients m)
    (hcareful : ClientPlace.Careful phase m e (clients i))
    (h : client pid (clients i) m e = some (pc', m', op)) : m'.sent = m.sent := by
  rcases (client_step h).sent with hsame | hconnect | hprompt
  · exact hsame
  · exact absurd hconnect (hfull.1 i)
  · rw [hprompt] at hcareful
    exact absurd hcareful.2.1 hfull.2.1

end Client

/-! ## 4. The semaphore of the room -/

variable {ids : Pids} {s s' : State} {a : Party × Input}

def RefreshPlace.taken : RefreshPlace → Int
  | .waiting => 0
  | .showing => 1

/-- `sem_1` is free, or the server has it, or `refresh_chat_room`. -/
structure State.RoomKept (s : State) : Prop where
  free : 0 ≤ s.sem .room
  sum : s.sem .room + ServerPlace.taken (s.pc .server) + RefreshPlace.taken (s.pc .refresher) = 1

theorem roomKept_init : State.init.RoomKept := ⟨Int.one_nonneg, rfl⟩

/-- What the server does to `sem_1` is what it takes, or gives back. -/
theorem ServerStep.change_room {m m' : Mail} {pc pc' : ServerPlace} {op : SemOp Sem}
    (h : ServerStep m m' pc pc' op) : op.change .room + pc'.taken = pc.taken := by
  rcases h.room with ⟨rfl, rfl, rfl⟩ | ⟨rfl, rfl, rfl⟩ | ⟨rfl | rfl, htaken⟩
  · rfl
  · rfl
  · exact (Int.zero_add _).trans htaken
  · exact (Int.zero_add _).trans htaken

theorem refresh_change_room {m m' : Mail} {pc pc' : RefreshPlace} {e : Input} {op : SemOp Sem}
    (h : refresh pc m e = some (pc', m', op)) : op.change .room + pc'.taken = pc.taken := by
  cases pc with
  | waiting =>
    cases h
    rfl
  | showing =>
    cases h
    rfl

theorem roomKept_step (hkept : s.RoomKept) (h : step ids s a = some s') : s'.RoomKept := by
  obtain ⟨party, e⟩ := a
  obtain ⟨pc, m, op, sem, hnext, hop, rfl⟩ := Sys.step_cases h
  obtain ⟨hfree, hsum⟩ := hkept
  obtain ⟨hsem, hpos⟩ := SemOp.apply_eq_some hop .room
  refine ⟨hpos hfree, ?_⟩
  show sem .room + ServerPlace.taken (Function.update s.pc party pc .server) +
    RefreshPlace.taken (Function.update s.pc party pc .refresher) = 1
  cases party with
  | server =>
    have hroom := ServerStep.change_room (server_step hnext)
    rw [Function.update_self, Function.update_of_ne (by decide)]
    omega
  | refresher =>
    have hroom := refresh_change_room hnext
    rw [Function.update_self, Function.update_of_ne (by decide)]
    omega
  | client i =>
    have hroom : op.change .room = 0 := by
      rcases (client_step hnext).client with rfl | rfl <;> rfl
    rw [Function.update_of_ne (by simp), Function.update_of_ne (by simp)]
    omega

/-! ## 5. The runs -/

/-- The messages that were sent are processed, each once and in their order, but for one that the
    segment holds. -/
def State.Kept (s : State) : Prop :=
  s.mem.sent = s.mem.processed ∨
    s.mem.seg.text 0 ≠ [] ∧ s.mem.sent = s.mem.processed ++ [s.mem.seg.text 0]

/-- The server can move, at once or behind a step of `refresh_chat_room`. -/
def State.ServerGoesOn (ids : Pids) (s : State) : Prop :=
  ∀ e, (step ids s (.server, e)).isSome ∨
    ∃ s', step ids s (.refresher, e) = some s' ∧ (step ids s' (.server, e)).isSome

theorem State.Holds.kept (h : s.Holds) : s.Kept := by
  by_cases hsame : s.mem.sent = s.mem.processed
  · exact .inl hsame
  · obtain ⟨-, hfull⟩ := Phase.Holds.full h hsame
    exact .inr ⟨hfull.2.1, hfull.2.2⟩

theorem State.Holds.allProcessed (h : s.Holds) : AllProcessed s := by
  rintro (⟨htest, hnil⟩ | hgone)
  · unfold State.Holds State.phase at h
    rw [htest] at h
    rw [(Phase.Holds.clear h hnil).1.2]
  · by_cases hsame : s.mem.sent = s.mem.processed
    · rw [hsame]
    · refine absurd ?_ (Phase.Holds.full h hsame).1.ne.2.2
      unfold State.phase
      rcases hgone with hpc | hpc <;> rw [hpc] <;> rfl

theorem serverGoesOn (hholds : s.Holds) (hkept : s.RoomKept) (hne : s.mem.sent ≠ s.mem.processed) :
    s.ServerGoesOn ids := by
  intro e
  have hopen := (Phase.Holds.full hholds hne).1
  have hthere : s.pc .server ≠ ServerPlace.exited ∧ s.pc .server ≠ ServerPlace.stopped := by
    unfold State.phase at hopen
    constructor
    · intro hpc
      rw [hpc] at hopen
      exact hopen.ne.2.2 rfl
    · intro hpc
      rw [hpc] at hopen
      exact hopen.ne.2.2 rfl
  -- it waits for nothing but the semaphore, and only at `try_wait`
  have hmoves : ∀ s' : State, s'.pc .server = s.pc .server →
      (s.pc .server = ServerPlace.tryWait → 0 < s'.sem .room) → (step ids s' (.server, e)).isSome := by
    intro s' hpc hfree
    obtain ⟨⟨pc, m, op⟩, hnext⟩ := exists_server hthere s'.mem e
    rw [← hpc] at hnext
    refine @Sys.step_isSome _ _ _ _ _ _ _ (program ids) s' .server e ⟨pc, m, op⟩ hnext
      fun x hwait => ?_
    rcases (server_step hnext).room with ⟨hop, hfrom, -⟩ | ⟨hop, -⟩ | ⟨hop | hop, -⟩
    · cases hop.symm.trans hwait
      exact hfree (hpc ▸ hfrom)
    · cases hop.symm.trans hwait
    · cases hop.symm.trans hwait
    · cases hop.symm.trans hwait
  by_cases htry : s.pc .server = ServerPlace.tryWait ∧ s.sem .room = 0
  · have hsum := hkept.sum
    rw [htry.1, htry.2] at hsum
    have hshowing : s.pc .refresher = RefreshPlace.showing := by
      generalize s.pc .refresher = place at hsum
      change RefreshPlace at place
      cases place with
      | waiting => cases hsum
      | showing => rfl
    obtain ⟨s', hs', hpc, hsem⟩ : ∃ s', step ids s (.refresher, e) = some s' ∧
        s'.pc .server = s.pc .server ∧ s'.sem .room = s.sem .room + 1 := by
      refine ⟨⟨Function.update s.pc .refresher RefreshPlace.waiting, s.mem,
        Function.update s.sem .room (s.sem .room + 1)⟩, ?_, ?_, ?_⟩
      · refine Option.bind_eq_some_iff.mpr ⟨(RefreshPlace.waiting, s.mem, .post .room), ?_, rfl⟩
        show refresh (s.pc .refresher) s.mem e = _
        rw [hshowing]
        rfl
      · exact Function.update_of_ne
          (show (Party.server : Party) ≠ .refresher by decide) RefreshPlace.waiting s.pc
      · show Function.update s.sem .room (s.sem .room + 1) .room = _
        rw [Function.update_self]
    exact .inr ⟨s', hs', hmoves s' hpc fun _ => by omega⟩
  · refine .inl (hmoves s rfl fun hpc => ?_)
    have hfree := hkept.free
    have hzero : s.sem .room ≠ 0 := fun hz => htry ⟨hpc, hz⟩
    omega

/-- A step leaves what was processed as it is, or adds to it. -/
theorem processed_grows (h : step ids s a = some s') : s.mem.processed <+: s'.mem.processed := by
  obtain ⟨party, e⟩ := a
  obtain ⟨pc, m, op, sem, hnext, -, rfl⟩ := Sys.step_cases h
  cases party with
  | server =>
    change server (s.pc .server) s.mem e = _ at hnext
    rcases (server_step hnext).processed with hsame | hmore
    · exact ⟨[], by rw [List.append_nil]; exact hsame.symm⟩
    · exact ⟨_, hmore.symm⟩
  | refresher =>
    change refresh (s.pc .refresher) s.mem e = _ at hnext
    generalize s.pc .refresher = place at hnext
    change RefreshPlace at place
    cases place with
    | waiting =>
      cases hnext
      exact List.prefix_rfl
    | showing =>
      cases hnext
      exact List.prefix_rfl
  | client i =>
    change client (ids.pid i) (s.pc (.client i)) s.mem e = _ at hnext
    exact ⟨[], by rw [List.append_nil]; exact (client_step hnext).processed.symm⟩

/-- A step of the server. -/
def ofServer (a : Party × Input) : Bool := a.1 = .server

/-- **A message that is pending is processed, or comes closer to that.** -/
theorem pending_step (hholds : s.Holds) (hne : s.mem.sent ≠ s.mem.processed) (hcareful : Careful s a)
    (h : step ids s a = some s') :
    s.mem.sent <+: s'.mem.processed ∨
      (s'.mem.sent = s.mem.sent ∧ s'.mem.sent ≠ s'.mem.processed) ∧
        ServerPlace.ahead (s'.pc .server) + (ofServer a).toNat ≤ ServerPlace.ahead (s.pc .server) := by
  obtain ⟨hopen, hfull⟩ := Phase.Holds.full hholds hne
  obtain ⟨party, e⟩ := a
  obtain ⟨pc, m, op, sem, hnext, -, rfl⟩ := Sys.step_cases h
  cases party with
  | server =>
    change server (s.pc .server) s.mem e = _ at hnext
    have hmoved := server_step hnext
    have htaken : m.processed = s.mem.processed ++ [s.mem.seg.text 0] →
        s.mem.sent <+: m.processed := by
      intro hmore
      rw [hmore, ← hfull.2.2]
    rcases hmoved.processed with hsame | hmore
    · rcases server_advances hfull hopen hcareful hnext with hmore | hless
      · exact .inl (htaken hmore)
      · refine .inr ⟨⟨hmoved.sent, ?_⟩, ?_⟩
        · show m.sent ≠ m.processed
          rw [hmoved.sent, hsame]
          exact hne
        · exact hless
    · exact .inl (htaken hmore)
  | refresher =>
    have hm : m = s.mem := by
      change refresh (s.pc .refresher) s.mem e = _ at hnext
      generalize s.pc .refresher = place at hnext
      change RefreshPlace at place
      cases place with
      | waiting =>
        cases hnext
        rfl
      | showing =>
        cases hnext
        rfl
    subst hm
    exact .inr ⟨⟨rfl, hne⟩, Nat.le_refl _⟩
  | client i =>
    change client (ids.pid i) (s.pc (.client i)) s.mem e = _ at hnext
    have hsent : m.sent = s.mem.sent := 
      @client_sends_nothing s.clients _ _ _ _ _ _ _ _ hfull hcareful hnext
    refine .inr ⟨⟨hsent, ?_⟩, Nat.le_refl _⟩
    show m.sent ≠ m.processed
    rw [hsent, (client_step hnext).processed]
    exact hne

/-- Ten steps of the server are enough for what was sent before. -/
theorem processed_of_run (hholds : s.Holds) {as : List (Party × Input)}
    (h : runIf (step ids) Careful as s = some s') (hcount : 10 ≤ as.countP ofServer) :
    s.mem.sent <+: s'.mem.processed := by
  have hrank := ServerPlace.ahead_le (s.pc .server)
  refine @runIf_goal _ _ (step ids) Careful s s' _
    (fun t => (t.Holds ∧ t.mem.sent ≠ t.mem.processed) ∧ t.mem.sent = s.mem.sent)
    (fun t => s.mem.sent <+: t.mem.processed) (fun t => ServerPlace.ahead (t.pc .server)) ofServer
    (fun t _ => ServerPlace.ahead_pos _)
    (fun t a t' hgoal _ hstep => hgoal.trans (processed_grows hstep)) ?_ as ?_ h
  · rintro t a t' ⟨⟨ht, hne⟩, hsent⟩ hcareful hstep
    rcases pending_step ht hne hcareful hstep with hdone | ⟨⟨hkeeps, hne'⟩, hless⟩
    · exact .inl (hsent ▸ hdone)
    · exact .inr ⟨⟨⟨State.step_holds ht hcareful hstep, hne'⟩, hkeeps.trans hsent⟩, hless⟩
  · by_cases hsame : s.mem.sent = s.mem.processed
    · exact .inl (hsame ▸ List.prefix_rfl)
    · exact .inr ⟨⟨⟨hholds, hsame⟩, rfl⟩, hrank.trans hcount⟩

/-- **In a run of careful steps every message that was sent is processed once, as it was
    written**: at any time it has been, or it is the one in the segment; and then the server goes on,
    and has processed it ten steps later at the latest. -/
theorem all_processed (h : Reaches (step ids) Careful State.init s) :
    AllProcessed s ∧ s.Kept ∧ (s.mem.sent ≠ s.mem.processed → s.ServerGoesOn ids) ∧
      ∀ as s', runIf (step ids) Careful as s = some s' → 10 ≤ as.countP ofServer →
        s.mem.sent <+: s'.mem.processed := by
  have hholds := State.holds_of_reaches h
  have hroom : s.RoomKept :=
    h.invariant roomKept_init fun _ _ _ hs _ hstep => roomKept_step hs hstep
  exact ⟨hholds.allProcessed, hholds.kept, serverGoesOn hholds hroom,
    fun _ _ hrun hcount => processed_of_run hholds hrun hcount⟩

/-- `n` steps of a process, at which `hi` is typed if anything is. -/
def hiSteps (n : Nat) (p : Party) : List (Party × Input) :=
  List.replicate n (p, ⟨⟨ascii "hi", by decide, by decide⟩, 0⟩)

/-- Every other client is number 7, the others are number 8. -/
def twoPids : Pids :=
  ⟨fun i => 7 + i % 2, fun i => by omega, fun i => by unfold InRange32 INT_MIN INT_MAX; omega⟩

/-- A client connects, the server serves it, the client says `hi`. -/
def saysHi : List (Party × Input) :=
  hiSteps 2 (.client 0) ++ hiSteps 10 .server ++ hiSteps 3 (.client 0)

/-- What is seen of a state at its end. -/
def State.view (s : State) : List (List UInt8) × List (List UInt8) × ServerPlace × List UInt8 :=
  (s.mem.sent, s.mem.processed, s.pc .server, s.mem.seg.text 0)

theorem State.quiet_of_view {s : State} {sent processed : List (List UInt8)}
    (h : s.view = (sent, processed, .test, [])) :
    s.mem.sent = sent ∧ s.mem.processed = processed ∧ s.Quiet := by
  simp only [view, Prod.mk.injEq] at h
  obtain ⟨hsent, hprocessed, htest, hnil⟩ := h
  exact ⟨hsent, hprocessed, .inl ⟨htest, hnil⟩⟩

/-- `hi` is pending, and then it is processed. -/
theorem all_processed_hi : ∃ s s' : State, Reaches (step twoPids) Careful State.init s ∧
    s.mem.sent = [ascii "PID 7", ascii "hi"] ∧ s.mem.processed = [ascii "PID 7"] ∧ s.Kept ∧
    s.ServerGoesOn twoPids ∧ runIf (step twoPids) Careful (hiSteps 12 .server) s = some s' ∧
    s.mem.sent <+: s'.mem.processed ∧ s'.Quiet ∧ AllProcessed s' := by
  have hview : ((runIf (step twoPids) Careful saysHi State.init).map State.view) =
      some ([ascii "PID 7", ascii "hi"], [ascii "PID 7"], .test, ascii "hi") := by
    decide +kernel
  have hview' : (((runIf (step twoPids) Careful saysHi State.init).bind
      (runIf (step twoPids) Careful (hiSteps 12 .server))).map State.view) =
        some ([ascii "PID 7", ascii "hi"], [ascii "PID 7", ascii "hi"], .test, []) := by
    decide +kernel
  obtain ⟨s, hrun, hs⟩ := Option.map_eq_some_iff.mp hview
  rw [hrun] at hview'
  obtain ⟨s', hrun', hs'⟩ := Option.map_eq_some_iff.mp hview'
  simp only [State.view, Prod.mk.injEq] at hs
  obtain ⟨hsent, hprocessed, -⟩ := hs
  obtain ⟨-, -, hquiet⟩ := State.quiet_of_view hs'
  have hreach := reaches_of_runIf Reaches.start hrun
  obtain ⟨-, hkept, hgoes, hdone⟩ := all_processed hreach
  exact ⟨s, s', hreach, hsent, hprocessed, hkept, hgoes (by rw [hsent, hprocessed]; decide), hrun',
    hdone _ s' hrun' (by decide), hquiet, (all_processed (reaches_of_runIf hreach hrun')).1⟩

/-- A second client connects before the server has seen `hi`: it writes over it. -/
theorem message_lost : ∃ s, Reaches (step twoPids) (fun _ _ => True) State.init s ∧ s.Quiet ∧
    ascii "hi" ∈ s.mem.sent ∧ ascii "hi" ∉ s.mem.processed ∧ ¬ AllProcessed s := by
  have hview : ((run (step twoPids) (saysHi ++ hiSteps 2 (.client 1) ++ hiSteps 10 .server)
      State.init).map State.view) = some ([ascii "PID 7", ascii "hi", ascii "PID 8"],
        [ascii "PID 7", ascii "PID 8"], .test, []) := by
    decide +kernel
  obtain ⟨s, hrun, hs⟩ := Option.map_eq_some_iff.mp hview
  obtain ⟨hsent, hprocessed, hquiet⟩ := State.quiet_of_view hs
  refine ⟨s, reaches_of_run (fun _ _ _ => trivial) .start hrun, hquiet, ?_, ?_, fun hall => ?_⟩
  · rw [hsent]
    decide
  · rw [hprocessed]
    decide
  · have hlength := (hall hquiet).length_eq
    rw [hsent, hprocessed] at hlength
    cases hlength

end Chatroom
end Labs
