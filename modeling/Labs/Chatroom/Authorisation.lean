import Labs.Chatroom.ControlRoom

/-!
# Who is sent the requested data

Between two passes both flags are down (`Idle`): the pass that raises `yes_pswd` also sends the
data and lowers it, and `resp_flag` is lowered at the end of every pass. So what an exchange
writes to the reply area depends on nothing but its own answers and the segment at the
comparison with the password; `exchange` lists it.

Two things go wrong in one place. The answers `y`, `y` raise `yes_pswd` before the password has
been looked at, so the data goes out whatever the text is, and after `Rejected`; and the
comparison looks at six bytes, so a longer text passes it. Both need the same three inputs
(`Leaks`), and without them the exchange is as it should be
(`data_only_if_authorised_iff`).

## An exchange on its own

A pass depends on the room that the last one has left. It would have to be followed back, were it
not that both flags are down between two passes (`serverControlRoom_idle`); so an exchange can be
looked at alone, with the answers that are given in it and the text that the segment holds at the
one comparison.

The text is taken as it is found. Clients write to the segment without asking, so nothing is assumed
of it: it need not have anything to do with the message, and it may change between two accesses of a
pass.

`Guarded` is about the order of the replies too. Nothing is to be sent behind a `Rejected`, and the
replies of an exchange end with the data if they have it, so the order adds nothing for the
exchanges that are authorised (`no_data_after`), and it is a second fault of those that leak.
-/

namespace Labs
namespace Chatroom

open Lib

variable {t : Turn} {r : Room} {replies rest : List Reply}

/-- The message of the pass is a request for the data. -/
structure Turn.IsRequest (t : Turn) : Prop where
  message : cstr t.atTest.bytes ≠ []
  noPid : strstr t.atPid.bytes (ascii "PID") = false
  asks : strstr t.atRequest.bytes (ascii "request data") = true

/-- The administrator has waived the password, or required it and the client's text is it. -/
def Turn.Authorised (t : Turn) : Prop :=
  tolower t.sendKey = YES ∧
    (tolower t.requireKey = NO ∨
      tolower t.requireKey = YES ∧ cstr t.atPassword.bytes = pswd)

/-- What is allowed to happen in the reply area. -/
structure Guarded (t : Turn) (replies : List Reply) : Prop where
  authorised : .requestedData ∈ replies → t.Authorised
  afterRejected : ∀ before after, replies = before ++ .rejected :: after →
    .requestedData ∉ after

/-- The password is required, and the text is not the password. -/
def Turn.Leaks (t : Turn) : Prop :=
  tolower t.sendKey = YES ∧ tolower t.requireKey = YES ∧ cstr t.atPassword.bytes ≠ pswd

/-! ## 1. Between two passes -/

/-- Both flags are down. -/
def Idle (r : Room) : Prop := r.yesPswd = false ∧ r.respFlag = false

theorem idle_init : Idle Room.init := ⟨rfl, rfl⟩

theorem connect_yesPswd {r' : Room} (h : connect t r = .ok r') : r'.yesPswd = r.yesPswd := by
  unfold connect at h
  cases hw : secondWord t.atSplit with
  | error s =>
    rw [hw, bind_of_error rfl] at h
    exact absurd h (by simp)
  | ok word =>
    rw [hw, bind_of_ok rfl] at h
    cases hi : storeId r.userIdData r.userCounter (atoi word) with
    | error s =>
      rw [hi, bind_of_error rfl] at h
      exact absurd h (by simp)
    | ok ids =>
      rw [hi, bind_of_ok rfl] at h
      cases h
      rfl

theorem disconnect_yesPswd {r' : Room} (h : disconnect r = .ok r') :
    r'.yesPswd = r.yesPswd := by
  unfold disconnect at h
  cases hi : storeId r.userIdData (wrap32 (r.userCounter - 1)) 0 with
  | error s =>
    rw [hi, bind_of_error rfl] at h
    exact absurd h (by simp)
  | ok ids =>
    rw [hi, bind_of_ok rfl] at h
    cases h
    rfl

/-- Nothing is left of `yes_pswd` behind the switches. -/
theorem sendData_yesPswd (r : Room) : (sendData r).1.yesPswd = false := by
  unfold sendData
  cases h : r.yesPswd with
  | true => rfl
  | false => exact h

theorem branch_yesPswd {r' : Room} (h : branch t r = .ok (r', replies)) (hr : Idle r) :
    r'.yesPswd = false := by
  unfold branch at h
  split at h
  · cases hc : connect t r with
    | error s =>
      rw [hc] at h
      cases h
    | ok r₁ =>
      rw [hc] at h
      cases h
      exact (connect_yesPswd hc).trans hr.1
  · split at h
    · cases h
      exact sendData_yesPswd _
    · split at h
      · cases hc : disconnect r with
        | error s =>
          rw [hc] at h
          cases h
        | ok r₁ =>
          rw [hc] at h
          cases h
          exact (disconnect_yesPswd hc).trans hr.1
      · cases h
        exact hr.1

/-- The room after a line is the room before it. -/
theorem answer_room {r' : Room} (h : (answer t r).1 = some r') : r' = r := by
  unfold answer at h
  split at h
  · exact (Option.some.inj h).symm
  · split at h
    · cases h
    · exact (Option.some.inj h).symm

/-- **A pass leaves the flags down.** -/
theorem pass_idle {r' : Room} (h : pass t r = .ok (some r', replies)) (hr : Idle r) :
    Idle r' := by
  unfold pass at h
  split at h
  · cases h
    exact hr
  · unfold serve at h
    cases hb : branch t r with
    | error s =>
      rw [hb, bind_of_error rfl] at h
      cases h
    | ok b =>
      obtain ⟨r₁, written⟩ := b
      rw [hb, bind_of_ok rfl] at h
      have hroom : (answer t r₁).1.map Room.reset = some r' :=
        congrArg Prod.fst (Except.ok.inj h)
      obtain ⟨r₂, hr₂, rfl⟩ := Option.map_eq_some_iff.mp hroom
      rw [answer_room hr₂]
      have hyes : r₁.yesPswd = false := branch_yesPswd hb hr
      exact ⟨hyes, rfl⟩

/-- **Both flags are down after every number of passes.** -/
theorem serverControlRoom_idle {ts : List Turn} {r r' : Room} {said : List (List Reply)}
    (h : serverControlRoom ts r = .ok (some r', said)) (hr : Idle r) : Idle r' := by
  induction ts generalizing r said with
  | nil =>
    cases h
    exact hr
  | cons t ts ih =>
    unfold serverControlRoom at h
    cases hp : pass t r with
    | error s =>
      rw [hp, bind_of_error rfl] at h
      cases h
    | ok p =>
      obtain ⟨next, replies⟩ := p
      rw [hp, bind_of_ok rfl] at h
      cases next with
      | none => cases h
      | some r₁ =>
        cases hrest : serverControlRoom ts r₁ with
        | error s =>
          simp only [hrest, bind_of_error rfl] at h
          cases h
        | ok q =>
          obtain ⟨last, later⟩ := q
          simp only [hrest, bind_of_ok rfl] at h
          have hlast : last = some r' := congrArg Prod.fst (Except.ok.inj h)
          subst hlast
          exact ih hrest (pass_idle hp hr)

/-! ## 2. One exchange -/

/-- What an exchange writes, up to the line of the administrator. -/
def exchange (t : Turn) : List Reply :=
  if tolower t.sendKey = YES then
    if tolower t.requireKey = YES then
      if strncmpEq t.atPassword.bytes pswd (strlen pswd) then
        [.passwordRequired, .granted, .requestedData]
      else [.passwordRequired, .rejected, .requestedData]
    else if tolower t.requireKey = NO then [.granted, .requestedData]
    else []
  else if tolower t.sendKey = NO then [.rejected]
  else []

theorem requestData_replies (hr : Idle r) : (requestData t r).2 = exchange t := by
  unfold requestData askAdmin askPassword exchange
  have hdown : (sendData r).2 = [] := by
    unfold sendData
    rw [hr.1]
    rfl
  have hresp : (sendData r.responded).2 = [] := by
    unfold sendData
    rw [show r.responded.yesPswd = false from hr.1]
    rfl
  split
  · split
    · split
      · rfl
      · rfl
    · split
      · rfl
      · exact hdown
  · split
    · exact congrArg ([.rejected] ++ ·) hresp
    · exact hdown

/-- The line of the administrator is not the data. -/
theorem answer_no_data (t : Turn) (r : Room) : .requestedData ∉ (answer t r).2 := by
  unfold answer
  intro h
  split at h
  · cases h
  · split at h
    · cases List.mem_singleton.mp h
    · cases List.mem_singleton.mp h

theorem pass_request (ht : t.IsRequest) (hr : Idle r) :
    ∃ next last, pass t r = .ok (next, exchange t ++ last) ∧ .requestedData ∉ last := by
  have hbranch : branch t r = .ok (requestData t r) := by
    unfold branch
    rw [if_neg (by rw [ht.noPid]; exact Bool.false_ne_true), if_pos ht.asks]
  refine ⟨(answer t (requestData t r).1).1.map Room.reset, (answer t (requestData t r).1).2, ?_,
    answer_no_data t _⟩
  unfold pass serve
  rw [if_neg ht.message, hbranch, bind_of_ok rfl, ← requestData_replies hr]
  rfl

/-! ## 3. When the exchange is guarded -/

/-- A text that is the password passes the comparison. -/
theorem strncmpEq_of_eq (h : cstr t.atPassword.bytes = pswd) :
    strncmpEq t.atPassword.bytes pswd (strlen pswd) = true := by
  unfold strncmpEq
  rw [h, show cstr pswd = pswd by decide]
  exact beq_self_eq_true _

theorem guarded_of_no_data (h : .requestedData ∉ replies) : Guarded t replies := by
  refine ⟨fun hmem => absurd hmem h, fun before after heq hmem => h ?_⟩
  rw [heq]
  exact List.mem_append_right _ (List.mem_cons_of_mem _ hmem)

theorem mem_data_append (hlast : .requestedData ∉ rest)
    (h : .requestedData ∈ replies ++ rest) : .requestedData ∈ replies := by
  cases List.mem_append.mp h with
  | inl h => exact h
  | inr h => exact absurd h hlast

/-- With the data as the last text of the exchange, and no `Rejected` before it, nothing follows
    a `Rejected`. -/
theorem no_data_after {before after : List Reply} (hlast : .requestedData ∉ rest)
    (hreplies : .rejected ∉ replies) (h : replies ++ rest = before ++ .rejected :: after) :
    .requestedData ∉ after := by
  intro hmem
  rcases List.append_eq_append_iff.mp h with ⟨c, -, hc⟩ | ⟨c, hc, hc'⟩
  · -- the `Rejected` stands in the rest
    rw [hc] at hlast
    exact hlast (List.mem_append_right _ (List.mem_cons_of_mem _ hmem))
  · cases c with
    | nil =>
      rw [List.nil_append] at hc'
      rw [← hc'] at hlast
      exact hlast (List.mem_cons_of_mem _ hmem)
    | cons e c =>
      have he : .rejected = e := (List.cons.inj hc').1
      subst he
      rw [hc] at hreplies
      exact hreplies (List.mem_append_right _ List.mem_cons_self)

/-- **The exchange writes what it may exactly when it does not leak.** -/
theorem guarded_exchange_iff (hlast : .requestedData ∉ rest) :
    Guarded t (exchange t ++ rest) ↔ ¬ t.Leaks := by
  constructor
  · rintro ⟨hauth, -⟩ ⟨hs, hq, htext⟩
    -- both outcomes of the comparison end with the data
    have hdata : .requestedData ∈ exchange t := by
      unfold exchange
      rw [if_pos hs, if_pos hq]
      split <;> simp
    obtain ⟨-, hno | ⟨-, hpswd⟩⟩ := hauth (List.mem_append_left _ hdata)
    · rw [hq] at hno
      exact absurd hno (by decide)
    · exact htext hpswd
  · intro hleaks
    by_cases hs : tolower t.sendKey = YES
    · by_cases hq : tolower t.requireKey = YES
      · -- the password is required, so the text is the password
        have htext : cstr t.atPassword.bytes = pswd := by
          by_contra hne
          exact hleaks ⟨hs, hq, hne⟩
        refine ⟨fun _ => ⟨hs, .inr ⟨hq, htext⟩⟩, fun before after h => ?_⟩
        refine no_data_after hlast ?_ h
        unfold exchange
        rw [if_pos hs, if_pos hq, if_pos (strncmpEq_of_eq htext)]
        simp
      · by_cases hn : tolower t.requireKey = NO
        · refine ⟨fun _ => ⟨hs, .inl hn⟩, fun before after h => ?_⟩
          refine no_data_after hlast ?_ h
          unfold exchange
          rw [if_pos hs, if_neg hq, if_pos hn]
          simp
        · refine guarded_of_no_data fun h => ?_
          have hmem := mem_data_append hlast h
          unfold exchange at hmem
          rw [if_pos hs, if_neg hq, if_neg hn] at hmem
          cases hmem
    · refine guarded_of_no_data fun h => ?_
      have hmem := mem_data_append hlast h
      unfold exchange at hmem
      rw [if_neg hs] at hmem
      split at hmem
      · cases List.mem_singleton.mp hmem
      · cases hmem

/-- **In every run, an exchange writes the data only with authorisation, and not after
    `Rejected`, exactly when it is not one in which the password is required and the text is not
    the password.** -/
theorem data_only_if_authorised_iff {ts : List Turn} {said : List (List Reply)}
    (hrun : serverControlRoom ts Room.init = .ok (some r, said)) (ht : t.IsRequest) :
    (∃ next replies, pass t r = .ok (next, replies) ∧ Guarded t replies) ↔ ¬ t.Leaks := by
  obtain ⟨next, last, hpass, hlast⟩ := pass_request ht (serverControlRoom_idle hrun idle_init)
  rw [← guarded_exchange_iff hlast, hpass]
  constructor
  · rintro ⟨next', replies, heq, hg⟩
    cases heq
    exact hg
  · intro hg
    exact ⟨next, _, rfl, hg⟩

/-- A pass that finds `text` at every access before the countdown, and `typed` after it. -/
def turnWith (text typed : List UInt8) (sendKey requireKey : Int) : Turn :=
  let s := Segment.holding text
  ⟨s, s, s, s, s, Segment.holding typed, sendKey, requireKey, []⟩

/-- The pass in which a client connects. -/
def connecting : Turn := turnWith (ascii "PID 77") [] 0 0

/-- A request in which the password is required, and the client does not type one. -/
def wrongPassword : Turn := turnWith (ascii "request data") [] YES YES

/-- A request in which the password is waived. -/
def waived : Turn := turnWith (ascii "request data") [] YES NO

def oneUser : Room := ⟨false, false, 1, (Vector.replicate MAX_USR 0).set 0 77⟩

theorem connected : serverControlRoom [connecting] Room.init = .ok (some oneUser, [[]]) := by
  decide +kernel

theorem wrongPassword_isRequest : wrongPassword.IsRequest :=
  ⟨by decide +kernel, by decide +kernel, by decide +kernel⟩

theorem waived_isRequest : waived.IsRequest :=
  ⟨by decide +kernel, by decide +kernel, by decide +kernel⟩

theorem data_only_if_authorised_iff_waived :
    (∃ next replies, pass waived oneUser = .ok (next, replies) ∧ Guarded waived replies) ↔
      ¬ waived.Leaks :=
  data_only_if_authorised_iff connected waived_isRequest

/-- Somebody connects, requests the data and types no password: it is `Rejected`, and it gets the
    data. -/
theorem data_sent_after_rejected :
    serverControlRoom [connecting] Room.init = .ok (some oneUser, [[]]) ∧
      wrongPassword.IsRequest ∧
      pass wrongPassword oneUser =
        .ok (some oneUser, [.passwordRequired, .rejected, .requestedData]) ∧
      [Reply.passwordRequired, .rejected, .requestedData].map Reply.text =
        [ascii "password required", ascii "Rejected", data] ∧
      ¬ ∃ next replies,
        pass wrongPassword oneUser = .ok (next, replies) ∧ Guarded wrongPassword replies := by
  have hpass : pass wrongPassword oneUser =
      .ok (some oneUser, [.passwordRequired, .rejected, .requestedData]) := by decide +kernel
  refine ⟨connected, wrongPassword_isRequest, hpass, rfl, ?_⟩
  rintro ⟨next, replies, heq, hg⟩
  rw [hpass] at heq
  cases heq
  exact hg.afterRejected [.passwordRequired] [.requestedData] rfl List.mem_cons_self

end Chatroom
end Labs
