import Labs.Chatroom.UserList

/-!
# The indices of the user list

Every use of `user_id_data` has `user_counter` or `user_counter - 1` as its index: `indices` lists
those of one pass, the reads for the windows included. Nothing checks the counter. It goes up with
every text that contains `PID` and has a second word, down with every other one that contains
`disconnect`, and is used by `request data`, which does not change it.

So the indices are right as long as the messages are: no `PID` when there are `MAX_USR` of them more
than `disconnect`, and no `request data` and no `disconnect` when there are not more. This is
`Balanced`, in which the counter is counted from the messages alone.

## The counter and the count

A message is what the server takes it for, at the moments when it looks: a client may write into the
segment in between, so a `Turn` has the text of each access. The counter of the server is an `int`
that these branches change, and `Message.count` a natural number that is computed beside it and does
not look at the room.

The two agree as long as every message was allowed (`counter_of_pass`). Where they agree, the
indices of the next pass are in bounds exactly if its message is allowed (`indices_in_bounds_iff`).
So the equivalence is an induction on the passes, in which nothing is to be known of what comes
behind the first message that is not allowed.
-/

namespace Labs
namespace Chatroom

open Lib

variable {t : Turn} {r : Room} {n : Nat}

/-- Where the index of each use of `user_id_data` in a pass comes from; a read that is repeated is
    listed once. -/
def indices (t : Turn) (r : Room) : List Int :=
  if cstr t.atTest.bytes = [] then []
  else if strstr t.atPid.bytes (ascii "PID") then
    match secondWord t.atSplit with
    | .error _ => []
    | .ok _ => [r.userCounter, wrap32 (wrap32 (r.userCounter + 1) - 1)]
  else if strstr t.atRequest.bytes (ascii "request data") then [wrap32 (r.userCounter - 1)]
  else if strstr t.atDisconnect.bytes (ascii "disconnect") then
    [wrap32 (r.userCounter - 1), wrap32 (r.userCounter - 1)]
  else []

/-- What the server takes a message for. -/
inductive Message
  | nothing
  | connects
  | noNumber
  | requests
  | disconnects
  | chat
deriving DecidableEq

def Turn.message (t : Turn) : Message :=
  if cstr t.atTest.bytes = [] then .nothing
  else if strstr t.atPid.bytes (ascii "PID") then
    match secondWord t.atSplit with
    | .error _ => .noNumber
    | .ok _ => .connects
  else if strstr t.atRequest.bytes (ascii "request data") then .requests
  else if strstr t.atDisconnect.bytes (ascii "disconnect") then .disconnects
  else .chat

/-- `PID` without, so far, as many `disconnect`. -/
def Message.count : Message → Nat → Nat
  | .connects, n => n + 1
  | .disconnects, n => n - 1
  | _, n => n

def Message.Allowed : Message → Nat → Prop
  | .connects, n => n < MAX_USR
  | .requests, n | .disconnects, n => 0 < n
  | _, _ => True

/-- `user_counter` stays in its range and every index in that of the array, as long as the server
    is there. -/
def Safe : List Turn → Room → Prop
  | [], r => 0 ≤ r.userCounter ∧ r.userCounter ≤ MAX_USR
  | t :: ts, r =>
    (0 ≤ r.userCounter ∧ r.userCounter ≤ MAX_USR) ∧
      (∀ i ∈ indices t r, 0 ≤ i ∧ i < MAX_USR) ∧
      ∀ r' replies, pass t r = .ok (some r', replies) → Safe ts r'

/-- Every message is allowed behind the `n` of the messages before it. -/
def Balanced : List Turn → Room → Nat → Prop
  | [], _, _ => True
  | t :: ts, r, n =>
    t.message.Allowed n ∧
      ∀ r' replies, pass t r = .ok (some r', replies) → Balanced ts r' (t.message.count n)

/-! ## 1. The counter -/

/-- A pass that leaves a room: the message was empty, or the room is that of its branch. -/
theorem branch_of_pass {r' : Room} {replies : List Reply}
    (h : pass t r = .ok (some r', replies)) :
    cstr t.atTest.bytes = [] ∧ r' = r ∨
      cstr t.atTest.bytes ≠ [] ∧ ∃ r₁ written, branch t r = .ok (r₁, written) ∧ r' = r₁.reset := by
  unfold pass at h
  split at h
  · rename_i hempty
    cases h
    exact .inl ⟨hempty, rfl⟩
  · rename_i htest
    refine .inr ⟨htest, ?_⟩
    unfold serve at h
    cases hb : branch t r with
    | error s =>
      rw [hb, bind_of_error rfl] at h
      cases h
    | ok b =>
      obtain ⟨r₁, written⟩ := b
      rw [hb, bind_of_ok rfl] at h
      have hroom : (answer t r₁).1.map Room.reset = some r' := congrArg Prod.fst (Except.ok.inj h)
      obtain ⟨r₂, hr₂, rfl⟩ := Option.map_eq_some_iff.mp hroom
      exact ⟨r₁, written, rfl, by rw [answer_room hr₂]⟩

theorem requestData_counter (t : Turn) (r : Room) :
    (requestData t r).1.userCounter = r.userCounter := by
  have hsend : ∀ r : Room, (sendData r).1.userCounter = r.userCounter := by
    intro r
    unfold sendData
    split <;> rfl
  have hpassword : (askPassword t r).1.userCounter = r.userCounter := by
    unfold askPassword
    split
    · split <;> rfl
    · split <;> rfl
  have hadmin : (askAdmin t r).1.userCounter = r.userCounter := by
    unfold askAdmin
    split
    · exact hpassword
    · split <;> rfl
  exact (hsend _).trans hadmin

theorem connect_counter {r' : Room} (h : connect t r = .ok r') :
    (∃ word, secondWord t.atSplit = .ok word) ∧ r'.userCounter = wrap32 (r.userCounter + 1) := by
  unfold connect at h
  cases hw : secondWord t.atSplit with
  | error s =>
    rw [hw, bind_of_error rfl] at h
    cases h
  | ok word =>
    rw [hw, bind_of_ok rfl] at h
    cases hi : storeId r.userIdData r.userCounter (atoi word) with
    | error s =>
      rw [hi, bind_of_error rfl] at h
      cases h
    | ok ids =>
      rw [hi, bind_of_ok rfl] at h
      cases h
      exact ⟨⟨word, rfl⟩, rfl⟩

theorem disconnect_counter {r' : Room} (h : disconnect r = .ok r') :
    r'.userCounter = wrap32 (r.userCounter - 1) := by
  unfold disconnect at h
  cases hi : storeId r.userIdData (wrap32 (r.userCounter - 1)) 0 with
  | error s =>
    rw [hi, bind_of_error rfl] at h
    cases h
  | ok ids =>
    rw [hi, bind_of_ok rfl] at h
    cases h
    rfl

theorem wrap32_pred (hpos : 0 < n) (hle : n ≤ MAX_USR) : wrap32 ((n : Int) - 1) = (n - 1 : Nat) := by
  have hsub : (n : Int) - 1 = (n - 1 : Nat) := by omega
  rw [hsub]
  exact wrap32_natCast (by omega)

theorem wrap32_next (hlt : n < MAX_USR) : wrap32 ((n : Int) + 1) = (n + 1 : Nat) := by
  rw [← Nat.cast_succ]
  exact wrap32_natCast hlt

/-- The counter is counted from the messages. -/
theorem counter_of_pass {r' : Room} {replies : List Reply} (hn : r.userCounter = n)
    (hle : n ≤ MAX_USR) (hallowed : t.message.Allowed n)
    (h : pass t r = .ok (some r', replies)) :
    r'.userCounter = t.message.count n ∧ t.message.count n ≤ MAX_USR := by
  rcases branch_of_pass h with ⟨hempty, rfl⟩ | ⟨htest, r₁, written, hb, rfl⟩
  · have hmsg : t.message = .nothing := if_pos hempty
    rw [hmsg]
    exact ⟨hn, hle⟩
  · show r₁.userCounter = _ ∧ _
    unfold Turn.message at hallowed ⊢
    rw [if_neg htest] at hallowed ⊢
    unfold branch at hb
    by_cases hpid : strstr t.atPid.bytes (ascii "PID") = true
    · rw [if_pos hpid] at hb hallowed ⊢
      cases hc : connect t r with
      | error s =>
        rw [hc] at hb
        cases hb
      | ok r₂ =>
        rw [hc] at hb
        cases hb
        obtain ⟨⟨word, hword⟩, hcounter⟩ := connect_counter hc
        rw [hword] at hallowed ⊢
        have hlt : n < MAX_USR := hallowed
        rw [hcounter, hn]
        exact ⟨wrap32_next hlt, hlt⟩
    · rw [if_neg hpid] at hb hallowed ⊢
      by_cases hreq : strstr t.atRequest.bytes (ascii "request data") = true
      · rw [if_pos hreq] at hb hallowed ⊢
        have hr₁ : (requestData t r).1 = r₁ := congrArg Prod.fst (Except.ok.inj hb)
        rw [← hr₁, requestData_counter]
        exact ⟨hn, hle⟩
      · rw [if_neg hreq] at hb hallowed ⊢
        by_cases hdis : strstr t.atDisconnect.bytes (ascii "disconnect") = true
        · rw [if_pos hdis] at hb hallowed ⊢
          cases hc : disconnect r with
          | error s =>
            rw [hc] at hb
            cases hb
          | ok r₂ =>
            rw [hc] at hb
            cases hb
            have hpos : 0 < n := hallowed
            rw [disconnect_counter hc, hn]
            exact ⟨wrap32_pred hpos hle, Nat.le_trans (Nat.sub_le n 1) hle⟩
        · rw [if_neg hdis] at hb hallowed ⊢
          cases hb
          exact ⟨hn, hle⟩

/-! ## 2. The indices -/

theorem pred_in_bounds_iff (hle : n ≤ MAX_USR) :
    (0 ≤ wrap32 ((n : Int) - 1) ∧ wrap32 ((n : Int) - 1) < MAX_USR) ↔ 0 < n := by
  constructor
  · rintro ⟨hlo, -⟩
    by_contra hzero
    obtain rfl : n = 0 := by omega
    exact absurd hlo (by decide)
  · intro hpos
    rw [wrap32_pred hpos hle]
    have hlt : n - 1 < MAX_USR := by omega
    exact ⟨Int.natCast_nonneg _, by exact_mod_cast hlt⟩

theorem indices_in_bounds_iff (hn : r.userCounter = n) (hle : n ≤ MAX_USR) :
    (∀ i ∈ indices t r, 0 ≤ i ∧ i < MAX_USR) ↔ t.message.Allowed n := by
  unfold indices Turn.message
  rw [hn]
  by_cases hempty : cstr t.atTest.bytes = []
  · rw [if_pos hempty, if_pos hempty]
    simp [Message.Allowed]
  rw [if_neg hempty, if_neg hempty]
  by_cases hpid : strstr t.atPid.bytes (ascii "PID") = true
  · rw [if_pos hpid, if_pos hpid]
    cases hw : secondWord t.atSplit with
    | error s => simp [Message.Allowed]
    | ok word =>
      dsimp only [Message.Allowed]
      constructor
      · intro h
        exact_mod_cast (h n List.mem_cons_self).2
      · intro hlt
        have hback : ((n + 1 : Nat) : Int) - 1 = n := by omega
        have hboth : (0 : Int) ≤ n ∧ (n : Int) < MAX_USR :=
          ⟨Int.natCast_nonneg n, by exact_mod_cast hlt⟩
        rw [wrap32_next hlt, hback, wrap32_natCast hle]
        simpa using hboth
  rw [if_neg hpid, if_neg hpid]
  by_cases hreq : strstr t.atRequest.bytes (ascii "request data") = true
  · rw [if_pos hreq, if_pos hreq]
    simpa [Message.Allowed] using pred_in_bounds_iff hle
  rw [if_neg hreq, if_neg hreq]
  by_cases hdis : strstr t.atDisconnect.bytes (ascii "disconnect") = true
  · rw [if_pos hdis, if_pos hdis]
    simpa [Message.Allowed] using pred_in_bounds_iff hle
  rw [if_neg hdis, if_neg hdis]
  simp [Message.Allowed]

theorem safe_iff {ts : List Turn} (hn : r.userCounter = n) (hle : n ≤ MAX_USR) :
    Safe ts r ↔ Balanced ts r n := by
  have hrange : 0 ≤ r.userCounter ∧ r.userCounter ≤ MAX_USR := by
    rw [hn]
    exact ⟨Int.natCast_nonneg n, by exact_mod_cast hle⟩
  induction ts generalizing r n with
  | nil => exact ⟨fun _ => trivial, fun _ => hrange⟩
  | cons t ts ih =>
    rw [Safe, Balanced, indices_in_bounds_iff hn hle]
    refine ⟨fun ⟨_, hallowed, hrest⟩ => ⟨hallowed, fun r' replies hp => ?_⟩,
      fun ⟨hallowed, hrest⟩ => ⟨hrange, hallowed, fun r' replies hp => ?_⟩⟩
    · obtain ⟨hn', hle'⟩ := counter_of_pass hn hle hallowed hp
      refine (ih hn' hle' ?_).mp (hrest r' replies hp)
      rw [hn']
      exact ⟨Int.natCast_nonneg _, by exact_mod_cast hle'⟩
    · obtain ⟨hn', hle'⟩ := counter_of_pass hn hle hallowed hp
      refine (ih hn' hle' ?_).mpr (hrest r' replies hp)
      rw [hn']
      exact ⟨Int.natCast_nonneg _, by exact_mod_cast hle'⟩

/-- **The counter and the indices stay in bounds exactly when the messages are balanced.** -/
theorem indices_safe_iff (ts : List Turn) : Safe ts Room.init ↔ Balanced ts Room.init 0 :=
  safe_iff rfl (Nat.zero_le _)

/-- A text that contains `disconnect`, before anybody has connected. -/
def early : Turn := turnWith (ascii "please disconnect me") [] 0 0

theorem early_out_of_bounds : indices early Room.init = [-1, -1] ∧ ¬ Safe [early] Room.init := by
  have hindices : indices early Room.init = [-1, -1] := by decide +kernel
  refine ⟨hindices, fun h => ?_⟩
  have hbounds := h.2.1 (-1) (by rw [hindices]; exact List.mem_cons_self)
  exact absurd hbounds.1 (by decide)

end Chatroom
end Labs
