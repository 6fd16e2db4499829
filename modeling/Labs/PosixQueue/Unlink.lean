import Labs.Lib.QueueTable
import Labs.PosixQueue.Program

/-!
# The receiver unlinks the queue

The programs of `LAB_15/task_posix_queues_3/src/sender_receiver.c` with their calls of `mq_open`,
and with the end of `main`, where a receiver that has read something, and whose last `mq_getattr`
found no message, removes the name of the queue. There is one receiver, and there are senders in any
number, each with a file and a priority of its own; the queue is under one name, and new when
nothing is under the name.

The receiver does not look at the queue again before `mq_unlink`, and a sender that has the queue
open goes on with it when the name is gone. Messages are lost that way (`sent_before_unlink`). None
is lost while every message is sent to the queue that the name refers to, and not while the receiver
is on its way from the last `mq_getattr` to `mq_unlink` (`unlink_keeps`). Before that, the receiver
goes back to reading as long as there are messages, so the queue is empty when it leaves.

## Names and queues

A queue is not its name. `QueueTable` keeps both: queues are numbered as they are made, the name
refers to one of them or to none, and whoever has opened a queue has its number. After `mq_unlink` a
sender goes on with a queue that nobody will open again; the next one that opens the name makes
another.

`Inv` follows the receiver, since it is the only one that removes anything. Until it ends it has the
queue of the name, and when it is done with reading that queue is empty. What was sent is what it
has received or what the queue of the name holds, up to the order (`Kept`), because messages are
taken by their priority.

`Timely` has two parts, and each is about the moment of a send. That the name refers to the sender's
queue keeps a sender from talking to nobody; that the receiver is not leaving keeps it from talking
to one that does not listen. Both are conditions on the state in front of the step, and no other
step has any.
-/

namespace Labs
namespace PosixQueue

open Lib

/-! ## 1. The programs and the name -/

structure Crowd (ι : Type) where
  table : QueueTable Message
  /-- the queues that the programs have opened -/
  senders : ι → Option (Nat × Sender)
  receiver : Option (Nat × Receiver)
  ended : Bool
  sent : List (List UInt8)

inductive Call (ι : Type)
  | openSender (i : ι)
  | sender (i : ι)
  | openReceiver
  | receiver
  | unlink

/-- What the next step of the sender gives to `mq_send`. -/
def Sender.sends (payloadSize : Nat) (s : Sender) : List (List UInt8) :=
  match s.place with
  | .sending _ => [s.payload.take payloadSize]
  | .reading | .done => []

namespace Crowd

variable {ι : Type}

def init : Crowd ι := ⟨.empty, fun _ => none, none, false, []⟩

def received (w : Crowd ι) : List (List UInt8) :=
  match w.receiver with
  | some (_, r) => r.received
  | none => []

/-- `end:` of the receiver. A receiver that left at once has an `nbytes` of `-1`. -/
def unlink (w : Crowd ι) (r : Receiver) : Crowd ι :=
  { w with
    ended := true
    table := if 0 ≤ r.nbytes ∧ r.msgNum = 0 then w.table.removeName else w.table }

def step [DecidableEq ι] (files : ι → RegularFile) (prios : ι → Nat) (w : Crowd ι) : Call ι → Option (Crowd ι)
  | .openSender i =>
    match w.senders i with
    | none => some { w with
        table := w.table.openName
        senders := Function.update w.senders i (some (w.table.number, .start (files i))) }
    | some _ => none
  | .sender i =>
    match w.senders i with
    | none => none
    | some (q, s) =>
      (PosixQueue.sender (files i).payloadSize (prios i) s (w.table.queues q)).map fun r =>
        { w with
          table := w.table.set q r.2
          senders := Function.update w.senders i (some (q, r.1))
          sent := w.sent ++ s.sends (files i).payloadSize }
  | .openReceiver =>
    match w.receiver with
    | none => some { w with
        table := w.table.openName
        receiver := some (w.table.number, .start) }
    | some _ => none
  | .receiver =>
    match w.receiver with
    | none => none
    | some (q, r) =>
      (PosixQueue.receiver r (w.table.queues q)).map fun r =>
        { w with
          table := w.table.set q r.2
          receiver := some (q, r.1) }
  | .unlink =>
    match w.receiver with
    | none => none
    | some (_, r) =>
      if w.ended = false ∧ (r.place = .left ∨ r.place = .done) then some (w.unlink r) else none

/-- The receiver has found no message, and is about to unlink the queue. -/
def Leaving (w : Crowd ι) : Prop :=
  w.ended = false ∧ ∃ o ∈ w.receiver, o.2.place = .done ∧ 0 ≤ o.2.nbytes

/-- A message is sent to the queue that the name refers to, and not while the receiver is leaving. -/
def Timely (w : Crowd ι) : Call ι → Prop
  | .sender i => ∀ o ∈ w.senders i, o.2.place ≠ .reading →
      w.table.name = some o.1 ∧ ¬ w.Leaving
  | _ => True

instance (w : Crowd ι) : Decidable w.Leaving :=
  inferInstanceAs (Decidable (_ ∧ ∃ o ∈ w.receiver, _))

instance (w : Crowd ι) (c : Call ι) : Decidable (w.Timely c) :=
  match c with
  | .sender i => inferInstanceAs (Decidable (∀ o ∈ w.senders i, _))
  | .openSender _ | .openReceiver | .receiver | .unlink => isTrue trivial

end Crowd

/-! ## 2. A step of a program -/

variable {payloadSize prio : Nat} {q q' : List Message}

theorem sender_cases {s s' : Sender} (h : sender payloadSize prio s q = some (s', q')) :
    (q' = q ∧ s.sends payloadSize = [] ∧ s.place = .reading) ∨
      (s.sends payloadSize = [s.payload.take payloadSize] ∧ s.place ≠ .reading ∧
        q'.Perm (q ++ [⟨prio, s.payload.take payloadSize⟩])) := by
  obtain ⟨place, rest, payload, nbytes, msgSent⟩ := s
  cases place with
  | reading =>
    cases h
    exact .inl ⟨rfl, rfl, rfl⟩
  | sending rbytes =>
    obtain ⟨q₁, hsend, hq⟩ := Option.map_eq_some_iff.mp h
    cases hq
    exact .inr ⟨rfl, nofun, mqSend_perm hsend⟩
  | done => cases h

/-- What a step of the receiver can be. When it is done, it has seen that nothing is there. -/
theorem receiver_cases {r r' : Receiver} (h : receiver r q = some (r', q')) :
    (q' = q ∧ r'.received = r.received ∧ r'.nbytes = r.nbytes ∧ (r'.place = .done → q = []) ∧
        r'.place ≠ .start ∧ (r'.place = .left → r.place = .start)) ∨
      (∃ msg, q = msg :: q' ∧ r'.received = r.received ++ [msg.payload] ∧
        (r'.place = .receiving ∨ r'.place = .again)) := by
  obtain ⟨place, msgNum, nbytes, msgRead, received⟩ := r
  cases place with
  | start =>
    simp only [receiver] at h
    split at h <;> cases h <;> exact .inl ⟨rfl, rfl, rfl, nofun, nofun, fun _ => rfl⟩
  | receiving =>
    obtain ⟨⟨msg, q₁⟩, hreceive, hr⟩ := Option.map_eq_some_iff.mp h
    cases hr
    cases q with
    | nil => cases hreceive
    | cons head tail =>
      cases hreceive
      refine .inr ⟨msg, rfl, rfl, ?_⟩
      simp only [Receiver.take]
      split
      · exact .inl rfl
      · exact .inr rfl
  | again =>
    simp only [receiver] at h
    split at h <;> cases h
    · exact .inl ⟨rfl, rfl, rfl, nofun, nofun, nofun⟩
    · rename_i hempty
      refine .inl ⟨rfl, rfl, rfl, fun _ => ?_, nofun, nofun⟩
      exact List.eq_nil_of_length_eq_zero (Nat.eq_zero_of_not_pos hempty)
  | left | done => cases h

/-! ## 3. The messages -/

namespace Crowd

variable {ι : Type} {files : ι → RegularFile} {prios : ι → Nat} {w w' : Crowd ι}

/-- The receiver has the queue of the name until it ends, and leaves it empty if it will unlink it.
    A receiver that has not read anything has no bytes. -/
structure Drained (w : Crowd ι) (q : Nat) (r : Receiver) : Prop where
  named : w.ended = false → w.table.name = some q
  empty : w.ended = false → r.place = .done → 0 ≤ r.nbytes → w.table.contents = []
  fresh : r.place = .start ∨ r.place = .left → r.nbytes = -1
  finished : w.ended = true → r.place = .left ∨ r.place = .done

structure Inv (w : Crowd ι) : Prop where
  absent : w.receiver = none → w.ended = false
  drained : ∀ q r, w.receiver = some (q, r) → Drained w q r
  kept : Kept w.sent w.received (w.table.contents.map Message.payload)

theorem inv_init : Inv (init : Crowd ι) := ⟨fun _ => rfl, nofun, List.Perm.nil⟩

/-- An opening gives the name to a queue, and that is all that the receiver can see of it. -/
theorem Inv.openName (h : Inv w) (hreceiver : w'.receiver = w.receiver) (hended : w'.ended = w.ended)
    (hsent : w'.sent = w.sent) (htable : w'.table = w.table.openName) : Inv w' := by
  refine ⟨fun hnone => ?_, fun q r hr => ?_, ?_⟩
  · rw [hended]
    exact h.absent (hreceiver ▸ hnone)
  · rw [hreceiver] at hr
    obtain ⟨hnamed, hempty, hfresh, hover⟩ := h.drained q r hr
    refine ⟨fun he => ?_, fun he hdone hpos => ?_, hfresh, fun he => ?_⟩
    · rw [hended] at he
      rw [htable, QueueTable.openName_of_name (hnamed he)]
      exact hnamed he
    · rw [hended] at he
      rw [htable, QueueTable.contents_openName]
      exact hempty he hdone hpos
    · rw [hended] at he
      exact hover he
  · have hreceived : w'.received = w.received := by simp only [received, hreceiver]
    rw [hsent, hreceived, htable, QueueTable.contents_openName]
    exact h.kept

variable [DecidableEq ι]

theorem Inv.sender_step {i : ι} (h : Inv w) (htimely : w.Timely (.sender i))
    (hstep : step files prios w (.sender i) = some w') : Inv w' := by
  simp only [step] at hstep
  split at hstep
  · cases hstep
  · rename_i q s hi
    obtain ⟨⟨s', l⟩, hs, rfl⟩ := Option.map_eq_some_iff.mp hstep
    rcases sender_cases hs with ⟨rfl, hnone, -⟩ | ⟨hone, hplace, hperm⟩
    · -- nothing is sent
      have hcontents : (w.table.set q (w.table.queues q)).contents = w.table.contents := by
        by_cases hname : w.table.name = some q
        · rw [QueueTable.contents_set hname, QueueTable.contents_of_name hname]
        · exact QueueTable.contents_set_of_ne hname
      refine ⟨h.absent, fun q' r hr => ?_, ?_⟩
      · obtain ⟨hnamed, hempty, hfresh, hover⟩ := h.drained q' r hr
        exact ⟨hnamed, fun he hdone hpos => hcontents.trans (hempty he hdone hpos), hfresh, hover⟩
      · show Kept (w.sent ++ s.sends _) w.received _
        rw [hnone, List.append_nil, hcontents]
        exact h.kept
    · obtain ⟨hname, hstays⟩ := htimely (q, s) hi hplace
      refine ⟨h.absent, fun q' r hr => ?_, ?_⟩
      · obtain ⟨hnamed, hempty, hfresh, hover⟩ := h.drained q' r hr
        refine ⟨hnamed, fun he hdone hpos => ?_, hfresh, hover⟩
        exact absurd ⟨he, _, hr, hdone, hpos⟩ hstays
      · show Kept (w.sent ++ s.sends _) w.received ((w.table.set q l).contents.map _)
        rw [hone, QueueTable.contents_set hname]
        refine h.kept.send ?_
        rw [QueueTable.contents_of_name hname]
        have hmap := hperm.map Message.payload
        rw [List.map_append] at hmap
        exact hmap

theorem Inv.receiver_step (h : Inv w) (hstep : step files prios w .receiver = some w') :
    Inv w' := by
  simp only [step] at hstep
  split at hstep
  · cases hstep
  · rename_i q r hreceiver
    obtain ⟨⟨r', l⟩, hr, rfl⟩ := Option.map_eq_some_iff.mp hstep
    obtain ⟨hnamed, hempty, hfresh, hover⟩ := h.drained q r hreceiver
    have hreceived : w.received = r.received := by simp only [received, hreceiver]
    -- a receiver that has ended has no step
    have hruns : w.ended = false := by
      by_contra he
      rcases hover (Bool.eq_true_of_not_eq_false he) with hp | hp <;>
        simp [PosixQueue.receiver, hp] at hr
    have hname := hnamed hruns
    have hkept := h.kept
    rw [hreceived, QueueTable.contents_of_name hname] at hkept
    have hcontents : (w.table.set q l).contents = l := QueueTable.contents_set hname
    rcases receiver_cases hr with ⟨rfl, hsame, hnbytes, hdone, hstart, hleft⟩ | ⟨msg, hq, hmore, hp⟩
    · refine ⟨nofun, fun q' r'' hr'' => ?_, ?_⟩
      · cases hr''
        refine ⟨fun _ => hname, fun _ hp _ => hcontents.trans (hdone hp), fun hp => ?_, fun he => ?_⟩
        · rw [hnbytes]
          exact hfresh (.inl (hp.elim (absurd · hstart) hleft))
        · exact absurd (hruns.symm.trans he) Bool.false_ne_true
      · show Kept w.sent r'.received ((w.table.set q _).contents.map _)
        rw [hsame, hcontents]
        exact hkept
    · refine ⟨nofun, fun q' r'' hr'' => ?_, ?_⟩
      · cases hr''
        refine ⟨fun _ => hname, fun _ hd _ => ?_, fun hd => ?_, fun he => ?_⟩
        · rcases hp with hp | hp <;> cases hp.symm.trans hd
        · rcases hp with hp | hp <;> rcases hd with hd | hd <;> cases hp.symm.trans hd
        · exact absurd (hruns.symm.trans he) Bool.false_ne_true
      · show Kept w.sent r'.received ((w.table.set q l).contents.map _)
        rw [hmore, hcontents]
        rw [hq] at hkept
        exact hkept.receive (List.Perm.refl _)

theorem Inv.unlink_step (h : Inv w) (hstep : step files prios w .unlink = some w') : Inv w' := by
  simp only [step] at hstep
  split at hstep
  · cases hstep
  · rename_i q r hreceiver
    split at hstep
    · rename_i hend
      cases hstep
      obtain ⟨hnamed, hempty, hfresh, hover⟩ := h.drained q r hreceiver
      refine ⟨fun hnone => ?_, fun q' r' hr' => ?_, ?_⟩
      · cases hreceiver.symm.trans hnone
      · cases hreceiver.symm.trans hr'
        exact ⟨nofun, nofun, hfresh, fun _ => hend.2⟩
      · show Kept w.sent w.received _
        simp only [unlink]
        split
        · rename_i hremoves
          have hdone : r.place = .done := by
            refine hend.2.resolve_left fun hleft => ?_
            rw [hfresh (.inr hleft)] at hremoves
            exact absurd hremoves.1 (by decide)
          have hkept := h.kept
          rw [hempty hend.1 hdone hremoves.1] at hkept
          exact hkept
        · exact h.kept
    · cases hstep

theorem inv_step (c : Call ι) (h : Inv w) (htimely : w.Timely c)
    (hstep : step files prios w c = some w') : Inv w' := by
  cases c with
  | openSender i =>
    simp only [step] at hstep
    split at hstep <;> cases hstep
    exact h.openName rfl rfl rfl rfl
  | sender i => exact h.sender_step htimely hstep
  | openReceiver =>
    simp only [step] at hstep
    split at hstep <;> cases hstep
    rename_i hnone
    have hruns := h.absent hnone
    refine ⟨nofun, fun q r hr => ?_, ?_⟩
    · cases hr
      exact ⟨fun _ => w.table.openName_name, nofun, fun _ => rfl,
        fun he => absurd (hruns.symm.trans he) Bool.false_ne_true⟩
    · have hkept := h.kept
      simp only [received, hnone] at hkept
      show Kept w.sent [] (w.table.openName.contents.map _)
      rw [QueueTable.contents_openName]
      exact hkept
  | receiver => exact h.receiver_step hstep
  | unlink => exact h.unlink_step hstep

/-- **No message is lost** when every one is sent to the queue that the name refers to, and not
    while the receiver is leaving. -/
theorem unlink_keeps (h : Reaches (step files prios) Timely init w) :
    w.sent.Perm (w.received ++ w.table.contents.map Message.payload) :=
  (h.invariant inv_init fun _ c _ hw hok hstep => inv_step c hw hok hstep).kept

end Crowd

/-! ## 4. A message behind the last look -/

/-- A file with one byte. -/
def oneByte (b : UInt8) : RegularFile := ⟨[b], (by decide : (1 : Int) ≤ SSIZE_MAX)⟩

/-- Sender `i` reads its file and sends it. -/
def oneMessage (i : Nat) : List (Call Nat) := [.openSender i, .sender i, .sender i]

/-- The receiver reads one message, and finds no other. -/
def oneRound : List (Call Nat) := [.openReceiver, .receiver, .receiver, .receiver]

def files (i : Nat) : RegularFile := oneByte (i : Nat).toUInt8

theorem unlink_keeps_later :
    ∃ w : Crowd Nat, Reaches (Crowd.step files id) Crowd.Timely .init w ∧ w.table.name = some 1 ∧
      w.sent.Perm (w.received ++ w.table.contents.map Message.payload) := by
  -- the second sender finds no queue
  have hrun : ∃ w : Crowd Nat, runIf (Crowd.step files id) Crowd.Timely
      (oneMessage 1 ++ oneRound ++ [.unlink] ++ oneMessage 2) .init = some w ∧
        w.table.name = some 1 := ⟨_, rfl, rfl⟩
  obtain ⟨w, hw, hname⟩ := hrun
  have hreach := reaches_of_runIf .start hw
  exact ⟨w, hreach, hname, Crowd.unlink_keeps hreach⟩

/-- The second message comes when the receiver has looked, and is not received. -/
theorem sent_before_unlink :
    ∃ w : Crowd Nat, run (Crowd.step files id)
        (oneMessage 1 ++ oneRound ++ oneMessage 2 ++ [.unlink]) .init = some w ∧
      w.sent = [[1], [2]] ∧ w.received = [[1]] ∧ w.table.name = none ∧
      ¬ w.sent.Perm (w.received ++ w.table.contents.map Message.payload) := by
  refine ⟨_, rfl, rfl, rfl, rfl, fun h => ?_⟩
  exact absurd h.length_eq (by decide)

end PosixQueue
end Labs
