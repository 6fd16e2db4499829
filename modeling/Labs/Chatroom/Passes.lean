import Labs.Chatroom.Messages

/-!
# A pass without the clients

The server of `Messages`, while no client writes, makes the passes of `ControlRoom`. Where a pass
finds the same segment at every access, and the segment cleaned behind the countdown, the server
comes to its test again with the room that `serve` answers, leaves if there is no room, and stops
where `serve` stops (`server_serves`).

## Two models of one loop

`ControlRoom` has a pass as one function, which is right as long as nobody else runs. `Messages` has
the same loop as steps, between which the clients can write. The second is the one that says what
happens; the first is what one reads. This module shows that the steps, with no client between them,
come to what the function says.

A place of the server corresponds to a point inside the function, so there is a lemma for each
stretch of the loop that ends at a place (`Comes.askedPassword`, `Comes.sentData`,
`Comes.answered`), and the pass is put together from them. The keys and lines of the administrator
are inputs of the steps, and fields of the turn in the function; `Turn.Finds` says that they are the
same.
-/

namespace Labs
namespace Chatroom

open Lib

/-! ## 1. The words of a message -/

/-- `split` has the places of the words that `connect` looks at. -/
theorem split_of_secondWord {s : Segment} {word : List UInt8} (h : secondWord s = .ok word) :
    ∃ first second seg, s.split = .ok (first, second, seg) := by
  have htext : s.text 0 = cstr s.bytes := rfl
  unfold secondWord at h
  cases hfirst : strtok DELIM (cstr s.bytes) with
  | mk tok rest =>
    rw [hfirst] at h
    cases tok with
    | none =>
      obtain rfl := strtok_none hfirst
      cases h
    | some tok =>
      cases hsecond : strtok DELIM rest with
      | mk tok' rest' =>
        dsimp only at h
        rw [hsecond] at h
        cases tok' with
        | none => cases h
        | some tok' =>
          unfold Segment.split tokenAt
          rw [htext, List.drop_zero, hfirst]
          dsimp only
          rw [Nat.zero_add, ← strtok_rest hfirst, hsecond]
          exact ⟨_, _, _, rfl⟩

/-! ## 2. The steps of the server alone -/

def alone (s : ServerPlace × Mail) (e : Input) : Option (ServerPlace × Mail) :=
  (server s.1 s.2 e).map fun r => (r.1, r.2.1)

/-- What the server comes to, with some keys and some lines typed. -/
def Comes (s s' : ServerPlace × Mail) : Prop := Reaches alone (fun _ _ => True) s s'

variable {s : ServerPlace × Mail} {m m' : Mail} {pc pc' : ServerPlace} {op : SemOp Sem}

theorem Comes.next (h : Comes s (pc, m)) (e : Input)
    (hstep : server pc m e = some (pc', m', op)) : Comes s (pc', m') :=
  Reaches.next h trivial (show alone (pc, m) e = some (pc', m') by rw [alone, hstep]; rfl)

/-- A key, and the empty line. -/
def Input.press (key : Int) : Input := ⟨⟨[], by decide, by decide⟩, key⟩

def Input.none : Input := .press 0

/-- A reply fits behind the text. -/
theorem Segment.send_reply (s : Segment) {text : List UInt8} (hlen : text.length ≤ 99) :
    ∃ s', s.send REPLY text = some s' := by
  have hfits : REPLY + (text ++ [NUL]).length ≤ SEGSIZE := by
    simp only [List.length_append, List.length_singleton, REPLY, SEGSIZE]
    omega
  obtain ⟨s₁, hcopy⟩ : ∃ s₁, s.copy REPLY text = some s₁ := Block.write_of_le hfits
  have hfits' : REPLY + text.length + 1 + [NUL].length ≤ SEGSIZE := by
    simp only [List.length_singleton, REPLY, SEGSIZE]
    omega
  obtain ⟨s₂, hend⟩ : ∃ s₂, Block.write s₁ (REPLY + text.length + 1) [NUL] = some s₂ :=
    Block.write_of_le hfits'
  exact ⟨s₂, Option.bind_eq_some_iff.mpr ⟨s₁, hcopy, hend⟩⟩

theorem Comes.reply {reply : Reply} {behind : Behind} (h : Comes s (.say reply behind, m))
    (hlen : reply.text.length ≤ 99) (hnil : m.seg.text 0 = []) :
    ∃ seg : Segment, seg.text 0 = [] ∧ Comes s (behind.place, { m with seg }) := by
  obtain ⟨seg, hseg⟩ := (m.seg.clean REPLY).send_reply hlen
  have hsay : server (.say reply behind) m Input.none =
      some (.posted behind, { m with seg }, .skip) := by
    rw [server, hseg]
    rfl
  exact ⟨seg, Segment.text_reply hnil hseg, (h.next Input.none hsay).next Input.none rfl⟩

/-- A text of the administrator, or of the server that leaves. -/
theorem Comes.line {reply : Reply} {behind : Behind} (h : Comes s (.sayLine reply behind, m))
    (hlen : reply.text.length ≤ 99) :
    ∃ seg, Comes s (behind.place, { m with seg }) := by
  obtain ⟨seg, hseg⟩ := m.seg.send_reply hlen
  have hsay : server (.sayLine reply behind) m Input.none =
      some (.posted behind, { m with seg }, .skip) := by
    rw [server, hseg]
    rfl
  exact ⟨seg, (h.next Input.none hsay).next Input.none rfl⟩

/-- From the end of a pass to the next test, or away. -/
theorem Comes.answered (h : Comes s (.closing, m)) (t : Turn) (line : Typed)
    (hline : cstr t.line = line.bytes) :
    match (answer t m.room).1 with
    | some r => ∃ m', Comes s (.test, m') ∧ m'.room = r.reset
    | none => ∃ m', Comes s (.exited, m') := by
  unfold answer
  by_cases hresp : m.room.respFlag = true
  · rw [if_pos hresp]
    have hclosing : server .closing m Input.none = some (.finish, m, .skip) := by
      rw [server, if_pos hresp]
    exact ⟨_, (h.next Input.none hclosing).next Input.none rfl, rfl⟩
  · rw [if_neg hresp]
    by_cases hq : cstr t.line = ascii "q"
    · rw [if_pos hq]
      have hclosing : server .closing m ⟨line, 0⟩ =
          some (.sayLine .serverDied .exited, m, .skip) := by
        rw [server, if_neg hresp, if_pos (hline ▸ hq)]
      obtain ⟨seg, hexited⟩ := (h.next _ hclosing).line (by decide)
      exact ⟨_, hexited⟩
    · rw [if_neg hq]
      have hclosing : server .closing m ⟨line, 0⟩ =
          some (.sayLine (.adminText (line.bytes.take 99)) .cleanLast, m, .skip) := by
        rw [server, if_neg hresp, if_neg (hline ▸ hq)]
      obtain ⟨seg, hclean⟩ := (h.next _ hclosing).line (List.length_take_le 99 _)
      exact ⟨_, (hclean.next Input.none rfl).next Input.none rfl, rfl⟩

/-! ## 3. The branches -/

/-- An empty text is not the password. -/
theorem not_pswd {bs : List UInt8} (h : cstr bs = []) :
    strncmpEq bs pswd (strlen pswd) = false := by
  unfold strncmpEq
  rw [h]
  decide

theorem Comes.askedPassword (h : Comes s (.askRequire, m)) (t : Turn)
    (hpswd : cstr t.atPassword.bytes = []) (hnil : m.seg.text 0 = []) :
    ∃ m', Comes s (.switched, m') ∧ m'.room = (askPassword t m.room).1 ∧ m'.seg.text 0 = [] := by
  unfold askPassword
  by_cases hyes : tolower t.requireKey = YES
  · rw [if_pos hyes, not_pswd hpswd]
    have hstep : server .askRequire m (.press t.requireKey) = some
        (.say .passwordRequired .countdown, { m with room := m.room.allow false }, .skip) := by
      rw [server]
      exact if_pos hyes
    obtain ⟨seg, hseg, hcompare⟩ := (h.next _ hstep).reply (by decide) hnil
    -- nobody has written a password
    have hwrong : server .compare { m with seg, room := m.room.allow false } Input.none = some
        (.say .rejected .switched, { m with seg, room := (m.room.allow false).responded },
          .skip) := by
      have hempty : cstr seg.bytes = [] := hseg
      have hnot : ¬ strncmpEq seg.bytes pswd (strlen pswd) = true := by
        rw [not_pswd hempty]
        exact Bool.false_ne_true
      rw [server]
      exact if_neg hnot
    obtain ⟨seg', hseg', hswitched⟩ := (hcompare.next _ hwrong).reply (by decide) hseg
    exact ⟨_, hswitched, by simp [Room.responded, Room.allow], hseg'⟩
  · rw [if_neg hyes]
    by_cases hno : tolower t.requireKey = NO
    · rw [if_pos hno]
      have hstep : server .askRequire m (.press t.requireKey) = some
          (.say .granted .switched, { m with room := m.room.allow true }, .skip) := by
        rw [server]
        exact (if_neg hyes).trans (if_pos hno)
      obtain ⟨seg, hseg, hswitched⟩ := (h.next _ hstep).reply (by decide) hnil
      exact ⟨_, hswitched, rfl, hseg⟩
    · rw [if_neg hno]
      have hstep : server .askRequire m (.press t.requireKey) = some (.switched, m, .skip) := by
        rw [server]
        exact (if_neg hyes).trans (if_neg hno)
      exact ⟨m, h.next _ hstep, rfl, hnil⟩

/-- The two questions. -/
theorem Comes.asked (h : Comes s (.askSend, m)) (t : Turn) (hpswd : cstr t.atPassword.bytes = [])
    (hnil : m.seg.text 0 = []) :
    ∃ m', Comes s (.switched, m') ∧ m'.room = (askAdmin t m.room).1 ∧ m'.seg.text 0 = [] := by
  unfold askAdmin
  by_cases hyes : tolower t.sendKey = YES
  · rw [if_pos hyes]
    have hstep : server .askSend m (.press t.sendKey) = some (.askRequire, m, .skip) := by
      rw [server]
      exact if_pos hyes
    exact (h.next _ hstep).askedPassword t hpswd hnil
  · rw [if_neg hyes]
    by_cases hno : tolower t.sendKey = NO
    · rw [if_pos hno]
      have hstep : server .askSend m (.press t.sendKey) = some
          (.say .rejected .switched, { m with room := m.room.responded }, .skip) := by
        rw [server]
        exact (if_neg hyes).trans (if_pos hno)
      obtain ⟨seg, hseg, hswitched⟩ := (h.next _ hstep).reply (by decide) hnil
      exact ⟨_, hswitched, rfl, hseg⟩
    · rw [if_neg hno]
      have hstep : server .askSend m (.press t.sendKey) = some (.switched, m, .skip) := by
        rw [server]
        exact (if_neg hyes).trans (if_neg hno)
      exact ⟨m, h.next _ hstep, rfl, hnil⟩

/-- The data, if `yes_pswd` is set. -/
theorem Comes.sentData (h : Comes s (.switched, m)) (hnil : m.seg.text 0 = []) :
    ∃ m', Comes s (.closing, m') ∧ m'.room = (sendData m.room).1 := by
  unfold sendData
  by_cases hyes : m.room.yesPswd = true
  · rw [if_pos hyes]
    have hswitched : server .switched m Input.none =
        some (.say .requestedData .answer, m, .skip) := by
      rw [server, if_pos hyes]
    obtain ⟨seg, -, hanswer⟩ := (h.next Input.none hswitched).reply (by decide) hnil
    exact ⟨_, ((hanswer.next Input.none rfl).next Input.none rfl).next Input.none rfl, rfl⟩
  · rw [if_neg hyes]
    have hswitched : server .switched m Input.none = some (.closing, m, .skip) := by
      rw [server, if_neg hyes]
    exact ⟨m, h.next Input.none hswitched, rfl⟩

/-- What a pass finds that meets the same segment at every access. -/
structure Turn.Finds (t : Turn) (seg : Segment) (line : Typed) : Prop where
  atPid : t.atPid = seg
  atRequest : t.atRequest = seg
  atDisconnect : t.atDisconnect = seg
  atSplit : t.atSplit = seg
  atPassword : cstr t.atPassword.bytes = []
  line : cstr t.line = line.bytes

theorem connect_finds {t : Turn} {seg : Segment} (h : t.atSplit = seg) (r : Room) :
    connect (turnAt seg) r = connect t r := by
  unfold connect
  rw [h]
  rfl

/-- The branches, from the first test of the message. -/
theorem Comes.branched (h : Comes s (.ifPid, m)) {t : Turn} {line : Typed}
    (hfinds : t.Finds m.seg line) :
    match branch t m.room with
    | .ok (r, _) => ∃ m', Comes s (.closing, m') ∧ m'.room = r
    | .error _ => ∃ m', Comes s (.stopped, m') := by
  unfold branch
  rw [hfinds.atPid, hfinds.atRequest, hfinds.atDisconnect]
  by_cases hpid : strstr m.seg.bytes (ascii "PID") = true
  · have hstep : server .ifPid m Input.none = some (.split, m, .skip) := by
      rw [server, if_pos hpid]
    have hsplit := h.next Input.none hstep
    rw [if_pos hpid]
    cases hroom : connect t m.room with
    | error stop =>
      have hstop : server .split m Input.none = some (.stopped, m, .skip) := by
        rw [server, connect_finds hfinds.atSplit, hroom]
        cases m.seg.split <;> rfl
      exact ⟨m, hsplit.next _ hstop⟩
    | ok r =>
      have hword : ∃ word, secondWord t.atSplit = .ok word := by
        unfold connect at hroom
        cases hsecond : secondWord t.atSplit with
        | error stop =>
          rw [hsecond] at hroom
          cases hroom
        | ok word => exact ⟨word, rfl⟩
      obtain ⟨word, hword⟩ := hword
      obtain ⟨first, second, seg, hwords⟩ := split_of_secondWord (hfinds.atSplit ▸ hword)
      have hconnect : server .split m Input.none = some
          (.cleanFirst first second, { m.process with seg, room := r }, .skip) := by
        rw [server, connect_finds hfinds.atSplit, hroom, hwords]
      have hcleaned := ((hsplit.next _ hconnect).next Input.none rfl).next Input.none rfl
      exact ⟨_, (hcleaned.next Input.none rfl).next Input.none rfl, rfl⟩
  · have hstep : server .ifPid m Input.none = some (.ifRequest, m, .skip) := by
      rw [server, if_neg hpid]
    have hrequest := h.next Input.none hstep
    rw [if_neg hpid]
    by_cases hask : strstr m.seg.bytes (ascii "request data") = true
    · have hstep : server .ifRequest m Input.none = some (.cleanRequest, m.process, .skip) := by
        rw [server, if_pos hask]
      rw [if_pos hask]
      have hcleaned := (hrequest.next _ hstep).next Input.none rfl
      obtain ⟨m₁, hswitched, hroom, hnil⟩ :=
        hcleaned.asked t hfinds.atPassword (Segment.text_clean_zero _)
      obtain ⟨m₂, hclosing, hsent⟩ := hswitched.sentData hnil
      refine ⟨m₂, hclosing, ?_⟩
      rw [hsent, hroom]
      rfl
    · have hstep : server .ifRequest m Input.none = some (.ifDisconnect, m, .skip) := by
        rw [server, if_neg hask]
      have hdisconnect := hrequest.next _ hstep
      rw [if_neg hask]
      by_cases hgo : strstr m.seg.bytes (ascii "disconnect") = true
      · have hstep : server .ifDisconnect m Input.none = some (.showDisconnect, m, .skip) := by
          rw [server, if_pos hgo]
        have hshown := (hdisconnect.next _ hstep).next Input.none rfl
        rw [if_pos hgo]
        cases hroom : disconnect m.room with
        | error stop =>
          have hstop : server .cleanDisconnect m.process Input.none =
              some (.stopped, m.process.clean 0, .skip) := by
            rw [server, show m.process.room = m.room from rfl, hroom]
          exact ⟨_, hshown.next _ hstop⟩
        | ok r =>
          have hleft : server .cleanDisconnect m.process Input.none =
              some (.closing, { m.process.clean 0 with room := r }, .skip) := by
            rw [server, show m.process.room = m.room from rfl, hroom]
          exact ⟨_, hshown.next _ hleft, rfl⟩
      · have hstep : server .ifDisconnect m Input.none = some (.showChat, m, .skip) := by
          rw [server, if_neg hgo]
        have hshown := (hdisconnect.next _ hstep).next Input.none rfl
        rw [if_neg hgo]
        exact ⟨_, hshown.next Input.none rfl, rfl⟩

/-- **The server alone makes the passes of `serve`.** -/
theorem server_serves {t : Turn} {line : Typed} (hfinds : t.Finds m.seg line) :
    match serve t m.room with
    | .ok (some r, _) => ∃ m', Comes (.ifPid, m) (.test, m') ∧ m'.room = r
    | .ok (none, _) => ∃ m', Comes (.ifPid, m) (.exited, m')
    | .error _ => ∃ m', Comes (.ifPid, m) (.stopped, m') := by
  have hbranched := Comes.branched (.start : Comes (.ifPid, m) (.ifPid, m)) hfinds
  unfold serve
  cases hbranch : branch t m.room with
  | error stop =>
    rw [hbranch] at hbranched
    exact hbranched
  | ok result =>
    obtain ⟨r, replies⟩ := result
    rw [hbranch] at hbranched
    obtain ⟨m₁, hclosing, rfl⟩ := hbranched
    have hanswered := hclosing.answered t line hfinds.line
    rw [bind_of_ok rfl]
    dsimp only
    cases hlast : answer t m₁.room with
    | mk left last =>
      rw [hlast] at hanswered
      cases left with
      | none => exact hanswered
      | some r => exact hanswered

end Chatroom
end Labs
