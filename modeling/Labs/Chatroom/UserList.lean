import Labs.Chatroom.Authorisation
import Mathlib.Data.List.Infix

/-!
# Who is in the user list

The server keeps the process numbers of its clients in `user_id_data`, the first `user_counter`
elements of it. A client connects with `PID <n>` and leaves with `disconnect`, which does not say who
it comes from: the server takes the last element off (`pass_disconnect`). So the list is a stack
(`Holds`), and it has the clients that are connected as long as they leave in the reverse of the
order in which they came, and there is room for them: `LastOut`.

An `Event` is one message, served in a pass at whose accesses the segment holds it (`Shows`). `Kept`
follows the passes and compares the list behind each with the clients connected then. When the
administrator leaves, the server does, and there is no list any more.

## Which client leaves

The message `disconnect` has no sender, and the server takes the client that came last. So the list
is the right one until somebody else leaves, and from then on it is wrong in two ways, with one
client too few and one too many. `Kept` asks for the right list behind *every* message, so the first
wrong one decides.

That makes the proof an induction over the messages with one invariant, `Holds`, which is stronger
than the property: not only the same numbers but the same order. A message either keeps it, or
breaks the property at once (`kept_iff`). There is nothing in between, since process numbers are
different, so that a number in the list stands for one client.

Each pass is one message, and finds it at every access. What happens if the segment changes in the
middle of a pass is the subject of `Messages`.
-/

namespace Labs
namespace Chatroom

open Lib

variable {t : Turn} {r : Room} {l : List Int} {pid : Int}

inductive Event
  | connect (pid : Int)
  | disconnect (pid : Int)
deriving DecidableEq

/-- What the client writes. -/
def Event.text : Event → List UInt8
  | .connect pid => ascii "PID " ++ decimal pid
  | .disconnect _ => ascii "disconnect"

/-- The clients connected behind the event. -/
def Event.after : Event → List Int → List Int
  | .connect pid, l => l ++ [pid]
  | .disconnect pid, l => l.erase pid

/-- Process numbers are positive, and no two processes have the same; only a connected client
    disconnects. -/
def Event.Possible : Event → List Int → Prop
  | .connect pid, l => 0 < pid ∧ InRange32 pid ∧ pid ∉ l
  | .disconnect pid, l => pid ∈ l

/-- The segment holds the message at every access that looks at it. -/
structure Turn.Shows (t : Turn) (text : List UInt8) : Prop where
  atTest : cstr t.atTest.bytes = text
  atPid : cstr t.atPid.bytes = text
  atRequest : cstr t.atRequest.bytes = text
  atDisconnect : cstr t.atDisconnect.bytes = text
  atSplit : cstr t.atSplit.bytes = text

/-- Messages that clients can send, from the connected clients `l` on. -/
def Possible : List (Event × Turn) → List Int → Prop
  | [], _ => True
  | (e, t) :: es, l => e.Possible l ∧ t.Shows e.text ∧ Possible es (e.after l)

/-- `user_id_data[0..user_counter)` is the set of the numbers in `l`. -/
def Lists (r : Room) (l : List Int) : Prop :=
  0 ≤ r.userCounter ∧ r.userCounter ≤ MAX_USR ∧
    ∀ n, n ∈ r.userIdData.toList.take r.userCounter.toNat ↔ n ∈ l

/-- The list is right behind every message. -/
def Kept : List (Event × Turn) → Room → List Int → Prop
  | [], _, _ => True
  | (e, t) :: es, r, l =>
    match pass t r with
    | .error _ => False
    | .ok (none, _) => True
    | .ok (some r', _) => Lists r' (e.after l) ∧ Kept es r' (e.after l)

/-- There is room for the client that comes, and the client that leaves came last. -/
def Event.Fits : Event → List Int → Prop
  | .connect _, l => l.length < MAX_USR
  | .disconnect pid, l => l.getLast? = some pid

/-- The administrator answers the message with `q`; after a `PID` there is no answer. -/
def Event.Quits : Event → Turn → Prop
  | .connect _, _ => False
  | .disconnect _, t => cstr t.line = ascii "q"

def LastOut : List (Event × Turn) → List Int → Prop
  | [], _ => True
  | (e, t) :: es, l => e.Quits t ∨ e.Fits l ∧ LastOut es (e.after l)

/-- The list is a stack of the clients `l`. -/
structure Holds (r : Room) (l : List Int) : Prop where
  idle : Idle r
  counter : r.userCounter = l.length
  le : l.length ≤ MAX_USR
  ids : r.userIdData.toList.take l.length = l

/-! ## 1. The stack -/

theorem holds_init : Holds Room.init [] := ⟨idle_init, rfl, Nat.zero_le _, rfl⟩

theorem idle_reset {r : Room} (h : r.yesPswd = false) : Idle r.reset := ⟨h, rfl⟩

theorem lists_iff {l' : List Int} (h : Holds r l') : Lists r l ↔ ∀ n, n ∈ l' ↔ n ∈ l := by
  have hle := h.le
  unfold Lists
  rw [h.counter, Int.toNat_natCast, h.ids]
  exact ⟨fun hl => hl.2.2, fun hl => ⟨Int.natCast_nonneg _, by exact_mod_cast hle, hl⟩⟩

/-- Storing at the end of the stack, and in the element behind it. -/
theorem storeId_eq (ids : Vector Int MAX_USR) {n : Nat} (x : Int) (h : n < MAX_USR) :
    ∃ ids', storeId ids n x = .ok ids' ∧ ids'.toList = ids.toList.set n x := by
  refine ⟨ids.set n x h, ?_, Vector.toList_set h⟩
  have hbounds : (0 : Int) ≤ n ∧ (n : Int) < MAX_USR := ⟨Int.natCast_nonneg n, by exact_mod_cast h⟩
  rw [storeId, dif_pos hbounds]
  rfl

theorem take_set_succ {ids : List Int} {n : Nat} (x : Int) (h : n < ids.length) :
    (ids.set n x).take (n + 1) = ids.take n ++ [x] := by
  rw [List.take_add_one, List.getElem?_set_self h, List.take_set_of_le (Nat.le_refl n)]
  rfl

theorem wrap32_natCast {n : Nat} (h : n ≤ MAX_USR) : wrap32 n = n := by
  have hle : (n : Int) ≤ 100 := by exact_mod_cast h
  refine wrap32_of_inRange ⟨?_, ?_⟩
  · unfold INT_MIN
    omega
  · unfold INT_MAX
    omega

/-! ## 2. The two messages -/

theorem strstr_prefix {bs needle rest : List UInt8} (h : cstr bs = needle ++ rest) :
    strstr bs needle = true := by
  rw [strstr, h, List.any_eq_true]
  refine ⟨needle ++ rest, ?_, List.isPrefixOf_iff_prefix.mpr (List.prefix_append _ _)⟩
  exact (List.mem_tails _ _).mpr (List.suffix_refl _)

theorem text_connect (pid : Int) :
    (Event.connect pid).text = ascii "PID" ++ 32 :: decimal pid := by
  have hsplit : ascii "PID " = ascii "PID" ++ [32] := by decide
  rw [Event.text, hsplit, List.append_assoc]
  rfl

/-- The second word of the message is the number. -/
theorem secondWord_connect {s : Segment} (hs : cstr s.bytes = (Event.connect pid).text)
    (hpos : 0 < pid) : secondWord s = .ok (decimal pid) := by
  obtain ⟨hne, hdigits⟩ := decimal_digits hpos
  have hplain : ∀ b ∈ decimal pid, b ∉ DELIM := by
    intro b hb hmem
    have hdigit := hdigits b hb
    have hblank : ∀ b ∈ DELIM, isdigit b = false := by decide +kernel
    rw [hblank b hmem] at hdigit
    cases hdigit
  have hfirst : strtok DELIM ([] ++ (ascii "PID" ++ 32 :: decimal pid)) = _ :=
    strtok_word (by simp) (by decide) (by decide +kernel) (by decide)
  have hsecond : strtok DELIM ([] ++ decimal pid) = _ := strtok_last (by simp) hne hplain
  rw [List.nil_append] at hfirst hsecond
  rw [secondWord, hs, text_connect, hfirst]
  dsimp only
  rw [hsecond]

theorem pass_of_branch {r' : Room} {replies : List Reply} (htest : cstr t.atTest.bytes ≠ [])
    (hb : branch t r = .ok (r', replies)) :
    pass t r = .ok ((answer t r').1.map Room.reset, replies ++ (answer t r').2) := by
  rw [pass, if_neg htest, serve, hb]
  rfl

theorem answer_of_up {r : Room} (h : r.respFlag = true) : answer t r = (some r, []) := if_pos h

theorem answer_of_down {r : Room} (h : r.respFlag = false) :
    answer t r = if cstr t.line = ascii "q" then (none, [.serverDied])
      else (some r, [.adminText (cstr t.line)]) :=
  if_neg (by rw [h]; exact Bool.false_ne_true)

theorem connect_room (hs : t.Shows (Event.connect pid).text) (hpos : 0 < pid)
    (hrange : InRange32 pid) (h : Holds r l) :
    if l.length < MAX_USR then
      ∃ r', connect t r = .ok r' ∧ r'.respFlag = true ∧ Holds r'.reset (l ++ [pid])
    else connect t r = .error .outOfBounds := by
  rw [connect, secondWord_connect hs.atSplit hpos, bind_of_ok rfl, atoi_decimal hpos hrange,
    h.counter]
  by_cases hroom : l.length < MAX_USR
  · rw [if_pos hroom]
    obtain ⟨ids, hids, hlist⟩ := storeId_eq r.userIdData pid hroom
    have hsucc : wrap32 ((l.length : Int) + 1) = (l.length + 1 : Nat) := by
      rw [← Nat.cast_succ]
      exact wrap32_natCast hroom
    rw [hids, bind_of_ok rfl, hsucc]
    refine ⟨_, rfl, rfl, idle_reset h.idle.1, ?_, ?_, ?_⟩
    · rw [List.length_append, List.length_singleton]
      rfl
    · rw [List.length_append, List.length_singleton]
      exact hroom
    · show ids.toList.take (l ++ [pid]).length = l ++ [pid]
      rw [List.length_append, List.length_singleton, hlist,
        take_set_succ pid (by rw [Vector.length_toList]; exact hroom), h.ids]
  · rw [if_neg hroom]
    have hbounds : ¬ ((0 : Int) ≤ l.length ∧ (l.length : Int) < MAX_USR) := by
      rintro ⟨-, hlt⟩
      exact hroom (by exact_mod_cast hlt)
    rw [storeId, dif_neg hbounds]
    rfl

theorem pass_connect (hs : t.Shows (Event.connect pid).text) (hpos : 0 < pid)
    (hrange : InRange32 pid) (h : Holds r l) :
    if l.length < MAX_USR then ∃ r', pass t r = .ok (some r', []) ∧ Holds r' (l ++ [pid])
    else pass t r = .error .outOfBounds := by
  have htest : cstr t.atTest.bytes ≠ [] := by
    rw [hs.atTest, text_connect]
    exact List.append_ne_nil_of_left_ne_nil (by decide) _
  have hpid : strstr t.atPid.bytes (ascii "PID") = true :=
    strstr_prefix (hs.atPid.trans (text_connect pid))
  have hconnect := connect_room hs hpos hrange h
  by_cases hroom : l.length < MAX_USR
  · rw [if_pos hroom] at hconnect ⊢
    obtain ⟨r', hr', hup, hholds⟩ := hconnect
    have hb : branch t r = .ok (r', []) := by
      rw [branch, if_pos hpid, hr']
      rfl
    refine ⟨r'.reset, ?_, hholds⟩
    rw [pass_of_branch htest hb, answer_of_up hup]
    rfl
  · rw [if_neg hroom] at hconnect ⊢
    rw [pass, if_neg htest, serve, branch, if_pos hpid, hconnect]
    rfl

theorem disconnect_room (hne : l ≠ []) (h : Holds r l) :
    ∃ r', disconnect r = .ok r' ∧ r'.respFlag = false ∧ Holds r'.reset l.dropLast := by
  have hpos : 0 < l.length := List.length_pos_iff.mpr hne
  have hlen := h.le
  have hsub : (l.length : Int) - 1 = (l.length - 1 : Nat) := by omega
  have hcounter : wrap32 (r.userCounter - 1) = (l.length - 1 : Nat) := by
    rw [h.counter, hsub]
    exact wrap32_natCast (by omega)
  obtain ⟨ids, hids, hlist⟩ := storeId_eq r.userIdData 0 (show l.length - 1 < MAX_USR by omega)
  refine ⟨{ r with userIdData := ids, userCounter := (l.length - 1 : Nat) }, ?_, h.idle.2,
    idle_reset h.idle.1, ?_, ?_, ?_⟩
  · rw [disconnect, hcounter, hids]
    rfl
  · rw [List.length_dropLast]
    rfl
  · rw [List.length_dropLast]
    omega
  · show ids.toList.take l.dropLast.length = l.dropLast
    rw [List.length_dropLast, hlist, List.take_set_of_le (Nat.le_refl _), List.dropLast_eq_take]
    calc r.userIdData.toList.take (l.length - 1)
        = (r.userIdData.toList.take l.length).take (l.length - 1) := by
          rw [List.take_take, Nat.min_eq_left (Nat.sub_le _ _)]
      _ = l.take (l.length - 1) := by rw [h.ids]

/-- Whoever sends `disconnect`, the last element goes. -/
theorem pass_disconnect (hs : t.Shows (Event.disconnect pid).text) (hne : l ≠ []) (h : Holds r l) :
    if cstr t.line = ascii "q" then ∃ replies, pass t r = .ok (none, replies)
    else ∃ r' replies, pass t r = .ok (some r', replies) ∧ Holds r' l.dropLast := by
  have htext : (Event.disconnect pid).text = ascii "disconnect" := rfl
  have htest : cstr t.atTest.bytes ≠ [] := by
    rw [hs.atTest, htext]
    decide
  have hpid : strstr t.atPid.bytes (ascii "PID") = false := by
    rw [strstr, hs.atPid, htext]
    decide
  have hrequest : strstr t.atRequest.bytes (ascii "request data") = false := by
    rw [strstr, hs.atRequest, htext]
    decide
  have hdisconnect : strstr t.atDisconnect.bytes (ascii "disconnect") = true :=
    strstr_prefix (hs.atDisconnect.trans (List.append_nil _).symm)
  obtain ⟨r', hr', hdown, hholds⟩ := disconnect_room hne h
  have hb : branch t r = .ok (r', []) := by
    rw [branch, hpid, hrequest, if_neg Bool.false_ne_true, if_neg Bool.false_ne_true,
      if_pos hdisconnect, hr']
    rfl
  rw [pass_of_branch htest hb, answer_of_down hdown]
  by_cases hq : cstr t.line = ascii "q"
  · rw [if_pos hq, if_pos hq]
    exact ⟨_, rfl⟩
  · rw [if_neg hq, if_neg hq]
    exact ⟨r'.reset, _, rfl, hholds⟩

/-! ## 3. Every sequence of messages -/

theorem erase_getLast (hnodup : l.Nodup) (h : l.getLast? = some pid) :
    l.erase pid = l.dropLast := by
  obtain ⟨ys, rfl⟩ := List.getLast?_eq_some_iff.mp h
  have hnot : pid ∉ ys := by
    intro hmem
    exact (List.nodup_append.mp hnodup).2.2 pid hmem pid List.mem_cons_self rfl
  rw [List.erase_append_right _ hnot, List.dropLast_concat]
  simp

/-- A client that did not come last stays in the list. -/
theorem mem_dropLast_of_ne (hmem : pid ∈ l) (h : l.getLast? ≠ some pid) : pid ∈ l.dropLast := by
  have hne : l ≠ [] := List.ne_nil_of_mem hmem
  rw [← List.dropLast_append_getLast hne, List.mem_append] at hmem
  refine hmem.resolve_right fun hlast => h ?_
  rw [List.getLast?_eq_some_getLast hne, List.mem_singleton.mp hlast]

theorem nodup_after {e : Event} (hnodup : l.Nodup) (h : e.Possible l) : (e.after l).Nodup := by
  cases e with
  | connect pid =>
    refine List.nodup_append.mpr ⟨hnodup, List.pairwise_singleton _ _, ?_⟩
    intro a ha b hb hab
    rw [List.mem_singleton.mp hb] at hab
    exact h.2.2 (hab ▸ ha)
  | disconnect pid => exact hnodup.erase pid

theorem kept_iff {es : List (Event × Turn)} (hr : Holds r l) (hnodup : l.Nodup)
    (h : Possible es l) : Kept es r l ↔ LastOut es l := by
  induction es generalizing r l with
  | nil => exact ⟨fun _ => trivial, fun _ => trivial⟩
  | cons et es ih =>
    obtain ⟨e, t⟩ := et
    obtain ⟨he, hs, hes⟩ := h
    have hafter := nodup_after hnodup he
    rw [Kept, LastOut]
    cases e with
    | connect pid =>
      have hpass := pass_connect hs he.1 he.2.1 hr
      by_cases hroom : l.length < MAX_USR
      · rw [if_pos hroom] at hpass
        obtain ⟨r', hr', hholds⟩ := hpass
        rw [hr']
        have hrest : Kept es r' ((Event.connect pid).after l) ↔ _ := ih hholds hafter hes
        have hlists : Lists r' ((Event.connect pid).after l) := (lists_iff hholds).mpr fun n => Iff.rfl
        dsimp only
        rw [hrest]
        exact ⟨fun hk => .inr ⟨hroom, hk.2⟩, fun hk => ⟨hlists, (hk.resolve_left id).2⟩⟩
      · rw [if_neg hroom] at hpass
        rw [hpass]
        exact ⟨False.elim, fun hk => absurd (hk.resolve_left id).1 hroom⟩
    | disconnect pid =>
      have hmem : pid ∈ l := he
      have hpass := pass_disconnect hs (List.ne_nil_of_mem hmem) hr
      by_cases hq : cstr t.line = ascii "q"
      · rw [if_pos hq] at hpass
        obtain ⟨replies, hpass⟩ := hpass
        rw [hpass]
        exact ⟨fun _ => .inl hq, fun _ => trivial⟩
      · rw [if_neg hq] at hpass
        obtain ⟨r', replies, hpass, hholds⟩ := hpass
        rw [hpass]
        dsimp only
        rw [lists_iff hholds]
        by_cases hlast : l.getLast? = some pid
        · have herase : (Event.disconnect pid).after l = l.dropLast := erase_getLast hnodup hlast
          rw [herase] at hes hafter ⊢
          rw [ih hholds hafter hes]
          exact ⟨fun hk => .inr ⟨hlast, hk.2⟩,
            fun hk => ⟨fun n => Iff.rfl, (hk.resolve_left hq).2⟩⟩
        · -- the client is still in the list, and another one is not
          have hstays := mem_dropLast_of_ne hmem hlast
          have hgone : pid ∉ (Event.disconnect pid).after l := hnodup.not_mem_erase
          exact ⟨fun hk => absurd ((hk.1 pid).mp hstays) hgone,
            fun hk => absurd (hk.resolve_left hq).1 hlast⟩

/-- **Behind every message the user list has the connected clients exactly when they leave in the
    reverse of the order in which they came**, and there is room for them. -/
theorem users_listed_iff {es : List (Event × Turn)} (h : Possible es []) :
    Kept es Room.init [] ↔ LastOut es [] :=
  kept_iff holds_init List.nodup_nil h

theorem shows_turnWith {text : List UInt8} (h : cstr (Segment.holding text).bytes = text) :
    (turnWith text [] 0 0).Shows text := ⟨h, h, h, h, h⟩

def connectTurn (pid : Int) : Event × Turn :=
  (.connect pid, turnWith (Event.connect pid).text [] 0 0)

def disconnectTurn (pid : Int) : Event × Turn :=
  (.disconnect pid, turnWith (Event.disconnect pid).text [] 0 0)

/-- `7` and `8` connect, and `7` leaves. -/
def firstLeaves : List (Event × Turn) := [connectTurn 7, connectTurn 8, disconnectTurn 7]

theorem firstLeaves_possible : Possible firstLeaves [] := by
  have hseven : (Event.connect 7).Possible [] := ⟨by decide, by decide, by decide⟩
  have height : (Event.connect 8).Possible [7] := ⟨by decide, by decide, by decide⟩
  have hleaves : (Event.disconnect 7).Possible [7, 8] := List.mem_cons_self
  exact ⟨hseven, shows_turnWith (by decide +kernel), height, shows_turnWith (by decide +kernel),
    hleaves, shows_turnWith (by decide +kernel), trivial⟩

theorem users_listed_iff_firstLeaves :
    Kept firstLeaves Room.init [] ↔ LastOut firstLeaves [] :=
  users_listed_iff firstLeaves_possible

/-- When `7` leaves, `8` is taken off the list. -/
theorem wrong_user_removed : Possible firstLeaves [] ∧ ¬ Kept firstLeaves Room.init [] := by
  refine ⟨firstLeaves_possible, ?_⟩
  rw [kept_iff holds_init List.nodup_nil firstLeaves_possible]
  rintro (h | ⟨-, h | ⟨-, h | ⟨hlast, -⟩⟩⟩)
  · exact h
  · exact h
  · exact absurd h (show cstr [] ≠ ascii "q" by decide)
  · exact absurd hlast (show [(7 : Int), 8].getLast? ≠ some 7 by decide)

end Chatroom
end Labs
