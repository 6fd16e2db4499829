import Labs.Lib.Processes
import Labs.SysVQueue.Program

/-!
# What is in a queue that is removed

A receiver calls `msgrcv` twice, whatever is in the queue, and removes the queue if it has read
anything. Two runs of the sender leave four messages, and the receiver destroys two of them
(`unread_removed`).

No message is lost as long as a receiver that may still remove the queue has at least as many calls
of `msgrcv` left as there are messages (`Enough`). A receiver starts like that if it finds two
messages at most, and what it reads, and what others read, does no harm; it is up to the senders to
wait until there is room for one more, and to the world not to let `msgrcv` fail.

## Counting calls

What decides is a number, the calls of `msgrcv` that a receiver has still to make, and it only goes
down. A receiver with as many calls as there are messages stays so: each call takes a message, or
there is none for it, and what other receivers take helps. So `Enough` is kept by every step but a
send, and a send that finds each receiver `Ready` leaves it `Enough`.

The queue under the name may be another one by the time the receiver removes it. A new queue has no
messages of the old one, so that does no harm (`Shrinks`).

`msgrcv` is given the largest type that a sender uses, so it takes a message whenever there is one.
What is left behind is never there for want of a type, but for want of a call.
-/

namespace Labs
namespace SysVQueue

open Lib

/-! ## 1. The calls that are left -/

/-- The queue that the receiver may remove, and how often it calls `msgrcv` before. -/
def ReceiverPlace.left : ReceiverPlace → Option (Nat × Nat)
  | .msgrcv quid i _ => some (quid, MSG_NUM - i)
  | .msgctl quid => some (quid, 0)
  | .msgget | .returned => none

/-- The receiver will not leave a message in the queue that it removes. -/
def ReceiverPlace.Enough (pc : ReceiverPlace) (t : Table) : Prop :=
  ∀ o ∈ pc.left, t.name = some o.1 → t.contents.length ≤ o.2

/-- There is room for one more message. -/
def ReceiverPlace.Ready (pc : ReceiverPlace) (t : Table) : Prop :=
  ∀ o ∈ pc.left, t.name = some o.1 → t.contents.length < o.2

def SenderPlace.Timely (ready : Prop) : SenderPlace → Event → Prop
  | .msgsnd _ _ _, .ok => ready
  | _, _ => True

def ReceiverPlace.Timely (t : Table) : ReceiverPlace → Event → Prop
  | .msgget, .ok => t.contents.length ≤ MSG_NUM
  | .msgrcv quid _ _, .error => t.name = some quid → t.contents = []
  | _, _ => True

variable {σ ρ : Type}

/-- A message is sent when every receiver is ready for it. A receiver gets the queue when there are
    no more messages than it will read, and its `msgrcv` does not fail while there are any. -/
def Timely (s : State σ ρ) : Run σ ρ × Event → Prop
  | (.sender i, e) => (s.senders i).Timely (∀ j, (s.receivers j).Ready s.table) e
  | (.receiver j, e) => (s.receivers j).Timely s.table e

/-! ## 2. A step of a program -/

variable {t t' : Table} {e : Event} {msgs : List TypedMessage} {msgQbytes : Nat}

/-- The queue under the name is a new one, or has no more messages than before. -/
def Shrinks (t t' : Table) : Prop :=
  ∀ quid, t'.name = some quid →
    t'.contents = [] ∨ t.name = some quid ∧ t'.contents.length ≤ t.contents.length

theorem Shrinks.refl (t : Table) : Shrinks t t := fun _ hname => .inr ⟨hname, le_refl _⟩

theorem Shrinks.openName (t : Table) : Shrinks t t.openName := by
  intro quid hname
  rw [QueueTable.contents_openName]
  cases ht : t.name with
  | none =>
    left
    simp [QueueTable.contents, ht]
  | some quid' =>
    rw [QueueTable.openName_of_name ht, ht] at hname
    exact .inr ⟨hname, le_refl _⟩

theorem ReceiverPlace.Enough.shrink {pc : ReceiverPlace} (h : pc.Enough t)
    (hshrinks : Shrinks t t') : pc.Enough t' := by
  intro o ho hname
  rcases hshrinks o.1 hname with hempty | ⟨hbefore, hle⟩
  · rw [hempty]
    exact Nat.zero_le _
  · exact hle.trans (h o ho hbefore)

theorem ReceiverPlace.Ready.enough {pc : ReceiverPlace} (h : pc.Ready t)
    (hname : t'.name = t.name) (hmore : t'.contents.length = t.contents.length + 1) :
    pc.Enough t' := by
  intro o ho hthere
  rw [hmore]
  exact h o ho (hname ▸ hthere)

/-- What a sender does. -/
theorem sender_step {ready : Prop} {pc pc' : SenderPlace} (htimely : pc.Timely ready e)
    (h : pc.step msgQbytes t e = some (pc', t', msgs)) :
    t'.contents = t.contents ++ msgs ∧ (∀ msg ∈ msgs, msg.mtype ≤ MSG_NUM) ∧
      (Shrinks t t' ∨ ready ∧ t'.name = t.name ∧ msgs.length = 1) := by
  have hstill : t.contents = t.contents ++ [] := (List.append_nil _).symm
  cases pc with
  | read i quid =>
    cases quid <;> cases e <;> cases h <;> exact ⟨hstill, nofun, .inl (.refl t)⟩
  | msgget i text =>
    cases e <;> cases h
    · refine ⟨?_, nofun, .inl (.openName t)⟩
      rw [QueueTable.contents_openName]
      exact hstill
    · exact ⟨hstill, nofun, .inl (.refl t)⟩
  | msgsnd i text quid =>
    cases e with
    | ok =>
      simp only [SenderPlace.step] at h
      split at h
      · rename_i hname
        obtain ⟨q, hq, hr⟩ := Option.map_eq_some_iff.mp h
        cases hr
        refine ⟨?_, ?_, .inr ⟨htimely, rfl, rfl⟩⟩
        · rw [QueueTable.contents_set hname, QueueTable.contents_of_name hname]
          exact msgsnd_eq_append hq
        · intro msg hmsg
          rw [List.mem_singleton.mp hmsg]
          exact i.isLt
      · cases h
        exact ⟨hstill, nofun, .inl (.refl t)⟩
    | error =>
      cases h
      exact ⟨hstill, nofun, .inl (.refl t)⟩
    | file text => cases h
  | returned => cases h

/-- A turn of the loop of a receiver that has seen the queue of `quid` with `n` messages in it. -/
theorem enough_following {quid readNum : Nat} {i : Fin MSG_NUM}
    (hle : t.name = some quid → t.contents.length + (i.val + 1) ≤ MSG_NUM) :
    (ReceiverPlace.following quid i readNum).Enough t := by
  intro o ho hname
  unfold ReceiverPlace.following at ho
  split at ho
  · cases ho
    have := hle hname
    exact Nat.le_sub_of_add_le this
  · split at ho
    · cases ho
      have hlast := hle hname
      show t.contents.length ≤ 0
      omega
    · cases ho

/-- A call of `msgrcv` on a queue that is there takes a message, or there is none up to the type. -/
theorem msgrcv_step {quid readNum : Nat} {i : Fin MSG_NUM} {pc' : ReceiverPlace}
    (henough : (ReceiverPlace.msgrcv quid i readNum).Enough t)
    (htypes : ∀ msg ∈ t.contents, msg.mtype ≤ MSG_NUM)
    (h : (ReceiverPlace.msgrcv quid i readNum).step t .ok = some (pc', t', msgs)) :
    t.contents.Perm (msgs ++ t'.contents) ∧ pc'.Enough t' ∧ Shrinks t t' := by
  have hstill : t.contents.Perm ([] ++ t.contents) := .refl _
  simp only [ReceiverPlace.step] at h
  split at h
  · rename_i hname
    have hle : t.contents.length ≤ MSG_NUM - i := henough _ rfl hname
    rw [← QueueTable.contents_of_name hname] at h
    split at h
    · rename_i hnone
      cases h
      refine ⟨hstill, enough_following fun _ => ?_, .refl t⟩
      rw [msgrcvUpTo_none hnone htypes, List.length_nil, Nat.zero_add]
      exact i.isLt
    · rename_i msg q hsome
      cases h
      have hperm := msgrcvUpTo_perm hsome
      have hless := hperm.length_eq
      rw [List.length_cons] at hless
      have hafter : (t.set quid q).contents = q := QueueTable.contents_set hname
      refine ⟨?_, enough_following fun _ => ?_, fun quid' hquid' => .inr ⟨hquid', ?_⟩⟩
      · rw [hafter]
        exact hperm
      · rw [hafter]
        omega
      · rw [hafter]
        omega
  · rename_i hgone
    cases h
    refine ⟨hstill, fun o ho hname => ?_, .refl t⟩
    cases ho
    exact absurd hname hgone

/-- What a receiver does. -/
theorem receiver_step {pc pc' : ReceiverPlace} (henough : pc.Enough t)
    (htypes : ∀ msg ∈ t.contents, msg.mtype ≤ MSG_NUM) (htimely : pc.Timely t e)
    (h : pc.step t e = some (pc', t', msgs)) :
    t.contents.Perm (msgs ++ t'.contents) ∧ pc'.Enough t' ∧ Shrinks t t' := by
  have hstill : t.contents.Perm ([] ++ t.contents) := .refl _
  cases pc with
  | msgget =>
    cases e <;> cases h
    · refine ⟨?_, ?_, .openName t⟩
      · rw [QueueTable.contents_openName]
        exact hstill
      · intro o ho _
        cases ho
        rw [QueueTable.contents_openName]
        exact htimely
    · exact ⟨hstill, nofun, .refl t⟩
  | msgrcv quid i readNum =>
    cases e with
    | ok => exact msgrcv_step henough htypes h
    | error =>
      cases h
      refine ⟨hstill, fun o ho hname => ?_, .refl t⟩
      cases ho
      rw [htimely hname]
      exact Nat.le_refl _
    | file text => cases h
  | msgctl quid =>
    cases e with
    | ok =>
      cases h
      split
      · rename_i hname
        have hempty := List.eq_nil_of_length_eq_zero (Nat.le_zero.mp (henough _ rfl hname))
        refine ⟨?_, nofun, nofun⟩
        rw [hempty]
        exact .refl _
      · exact ⟨hstill, nofun, .refl t⟩
    | error =>
      cases h
      exact ⟨hstill, nofun, .refl t⟩
    | file text => cases h
  | returned => cases h

/-! ## 3. The messages -/

variable {s s' : State σ ρ}

structure Inv (s : State σ ρ) : Prop where
  types : ∀ msg ∈ s.table.contents, msg.mtype ≤ MSG_NUM
  enough : ∀ j, (s.receivers j).Enough s.table
  kept : Kept s.sent s.received s.table.contents

theorem inv_init : Inv (init : State σ ρ) := ⟨nofun, fun _ => nofun, List.Perm.nil⟩

variable [DecidableEq σ] [DecidableEq ρ]

theorem inv_step (s : State σ ρ) (a : Run σ ρ × Event) (s' : State σ ρ) (h : Inv s)
    (htimely : Timely s a) (hstep : step msgQbytes s a = some s') : Inv s' := by
  obtain ⟨p, e⟩ := a
  cases p with
  | sender i =>
    obtain ⟨⟨pc, t, msgs⟩, hmove, rfl⟩ := Option.map_eq_some_iff.mp hstep
    obtain ⟨hcontents, htypes, hothers⟩ := sender_step htimely hmove
    refine ⟨fun msg hmsg => ?_, fun j => ?_, h.kept.send (.of_eq hcontents)⟩
    · rw [hcontents] at hmsg
      exact (List.mem_append.mp hmsg).elim (h.types msg) (htypes msg)
    · rcases hothers with hshrinks | ⟨hready, hname, hone⟩
      · exact (h.enough j).shrink hshrinks
      · refine (hready j).enough hname ?_
        rw [hcontents, List.length_append, hone]
  | receiver j =>
    obtain ⟨⟨pc, t, msgs⟩, hmove, rfl⟩ := Option.map_eq_some_iff.mp hstep
    obtain ⟨hperm, hown, hshrinks⟩ := receiver_step (h.enough j) h.types htimely hmove
    refine ⟨fun msg hmsg => ?_, fun j' => ?_, h.kept.receive hperm⟩
    · exact h.types msg (hperm.mem_iff.mpr (List.mem_append_right _ hmsg))
    · show (Function.update s.receivers j pc j').Enough t
      by_cases hj : j' = j
      · subst hj
        rw [Function.update_self]
        exact hown
      · rw [Function.update_of_ne hj]
        exact (h.enough j').shrink hshrinks

/-- **No message is lost**: whenever a receiver removes the queue, it is empty, and what was sent
    was received or is in the queue. -/
theorem removal_keeps (h : Reaches (step msgQbytes) Timely init s) :
    s.sent.Perm (s.received ++ s.table.contents) ∧
      ∀ j quid, s.receivers j = .msgctl quid → s.table.name = some quid →
        s.table.contents = [] := by
  have hinv : Inv s := h.invariant inv_init inv_step
  refine ⟨hinv.kept, fun j quid hj hname => ?_⟩
  have hnone := hinv.enough j (quid, 0) (by rw [hj]; rfl) hname
  exact List.eq_nil_of_length_eq_zero (Nat.le_zero.mp hnone)

/-- An empty file, and a limit that is common. -/
def noText : Text := ⟨[], Nat.zero_le _⟩
def MSGMNB : Nat := 16384

theorem removal_keeps_two :
    ∃ s : State Unit Unit, Reaches (step MSGMNB) Timely init s ∧
      s.receivers () = .msgctl 0 ∧ s.table.name = some 0 ∧ s.table.contents = [] ∧
      s.sent.Perm (s.received ++ s.table.contents) := by
  have hopened : Reaches (step MSGMNB) Timely (init : State Unit Unit) _ :=
    (Reaches.start.next (a := (.sender (), .file noText)) (by trivial) rfl).next
      (a := (.sender (), .ok)) (by trivial) rfl
  -- no receiver has the queue yet
  have hfirst := hopened.next (a := (.sender (), .ok)) (by intro j o ho; cases ho) rfl
  have hsecond := (hfirst.next (a := (.sender (), .file noText)) (by trivial) rfl).next
    (a := (.sender (), .ok)) (by intro j o ho; cases ho) rfl
  have hfound := hsecond.next (a := (.receiver (), .ok)) (by exact Nat.le_refl 2) rfl
  have hreceived := (hfound.next (a := (.receiver (), .ok)) (by trivial) rfl).next
    (a := (.receiver (), .ok)) (by trivial) rfl
  have hkeeps := removal_keeps hreceived
  exact ⟨_, hreceived, rfl, rfl, hkeeps.2 () 0 rfl rfl, hkeeps.1⟩

/-- A run of the sender with its two messages. -/
def sends (i : Fin 2) : List (Run (Fin 2) Unit × Event) :=
  [(.sender i, .file noText), (.sender i, .ok), (.sender i, .ok), (.sender i, .file noText),
    (.sender i, .ok)]

/-- A run of the receiver up to the removal. -/
def receives : List (Run (Fin 2) Unit × Event) := List.replicate 3 (.receiver (), .ok)

/-- Two runs of the sender, and one of the receiver. -/
theorem unread_removed :
    ∃ s s' : State (Fin 2) Unit, run (step MSGMNB) (sends 0 ++ sends 1 ++ receives) init = some s ∧
      step MSGMNB s (.receiver (), .ok) = some s' ∧ s.table.name = some 0 ∧
      s.table.contents.length = 2 ∧ s'.table.name = none ∧
      ¬ s'.sent.Perm (s'.received ++ s'.table.contents) := by
  refine ⟨_, _, rfl, rfl, rfl, rfl, rfl, fun h => ?_⟩
  exact absurd h.length_eq (by decide)

end SysVQueue
end Labs
