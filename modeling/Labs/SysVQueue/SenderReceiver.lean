import Mathlib.Tactic.Common

/-!
# One program that sends or receives

`main` of `LAB_15/task_sys_v_queues_3/src/sender_receiver.c`, behind its options: `-q` has been
given, and one of `-s` and `-r`, `-s` with a file. What its system calls answer is decided by the
world (`Outcomes`); each of them is made once at most, so one answer is enough, apart from the two
`msgctl` calls with `IPC_STAT`, of which the second one is behind the label `end`.

`obtained`, `received` and `foundEmpty` are not in the source. They record what `msgget` has
returned, whether `msgrcv` has returned a message, and whether the queue was found empty; `msgctls`
records the calls of `msgctl`.

At `end` the status is that of the `msgctl` there, whatever it was before. So a receiver that could
not look into the queue, or allocate, or receive, is successful all the same if that call succeeds
(`receiver_reports_iff`), and one that has not come to `msgget` asks for the queue with the number
zero.

## One variable for two things

`ret` is the status of the program and the result of every call that goes into it. An error sets it
and jumps to `end`. Behind `end` there is a call again, and that sets it too.

The model keeps the jumps as the error case of a monad, in three stretches (`openQueue`, `payload`,
`transfer`), and `atEnd` is what all of them lead to. It is a function of the variables and of one
answer of the world; with a queue the status in front of it does not occur in the result
(`atEnd_ret`).

What the receiver has learnt is kept apart from what it says. `Learnt` is that it has got a message
or has found the queue empty, and no step behind `end` changes it (`atEnd_learnt`). So a receiver
that reports success and has learnt nothing is one whose last call succeeds after a failure.
-/

namespace Labs
namespace SenderReceiver

inductive ProgType
  | sender
  | receiver
deriving DecidableEq

inductive Command
  | stat
  | rmid
deriving DecidableEq

/-- `msg_qnum` and `msg_cbytes` of a `msqid_ds`. -/
structure Ds where
  msgQnum : Nat
  msgCbytes : Nat
deriving DecidableEq

/-- Whether a file is a regular one, and its `st_size`. -/
structure Stat where
  regular : Bool
  stSize : Nat
deriving DecidableEq

/-- What the calls answer; `none` and `false` are failures. -/
structure Outcomes where
  statQueue : Bool
  statFile : Option Stat
  ftok : Bool
  msgget : Option Nat
  msgctl : Option Ds
  calloc : Bool
  openFile : Bool
  read : Option Nat
  msgsnd : Bool
  /-- The bytes of a message, or `errno`. -/
  msgrcv : Except Int Nat
  msgctlAtEnd : Option Ds

def EXIT_SUCCESS : Int := 0
def EXIT_FAILURE : Int := 1
def ENOMSG : Int := 42

structure Locals where
  nbytes : Int
  qid : Int
  ret : Int
  errorNum : Int
  payloadSize : Nat
  obtained : Option Int
  received : Bool
  foundEmpty : Bool
  msgctls : List (Int × Command)

/-- The initial values. -/
def Locals.start : Locals :=
  ⟨-1, 0, EXIT_SUCCESS, 0, 0, none, false, false, []⟩

def Locals.fail (l : Locals) (ret : Int) : Locals := { l with ret := ret }

/-- A call of `msgctl`. -/
def Locals.call (l : Locals) (cmd : Command) : Locals :=
  { l with msgctls := l.msgctls ++ [(l.qid, cmd)] }

/-! ## 1. The program -/

/-- Up to `msgget`. An error is a `goto end`. -/
def openQueue (p : ProgType) (w : Outcomes) (l : Locals) : Except Locals Locals :=
  if w.statQueue = false then .error (l.fail (-1))
  else if p = .sender ∧ w.statFile = none then .error (l.fail (-1))
  -- the status is that of `stat` here
  else if p = .sender ∧ w.statFile.any (fun sb => !sb.regular) then .error (l.fail 0)
  else if w.ftok = false then .error (l.fail EXIT_FAILURE)
  else match w.msgget with
    | none => .error { l with qid := -1, ret := EXIT_FAILURE }
    | some qid => .ok { l with qid := qid, ret := 0, obtained := some qid }

/-- How large the message is. -/
def payload (p : ProgType) (w : Outcomes) (l : Locals) : Except Locals Locals :=
  match p with
  | .sender => .ok { l with payloadSize := (w.statFile.map Stat.stSize).getD 0 }
  | .receiver =>
    let l := l.call .stat
    match w.msgctl with
    | none => .error (l.fail (-1))
    | some ds =>
      if 0 < ds.msgQnum then .ok { l with ret := 0, payloadSize := ds.msgCbytes }
      else .error { l with errorNum := ENOMSG, ret := EXIT_SUCCESS, foundEmpty := true }

/-- From `calloc` on. -/
def transfer (p : ProgType) (w : Outcomes) (l : Locals) : Except Locals Locals :=
  if w.calloc = false then .error (l.fail EXIT_FAILURE)
  else match p with
  | .sender =>
    if w.openFile = false then .error (l.fail EXIT_FAILURE)
    else match w.read with
    | none => .error { l with nbytes := -1, ret := EXIT_FAILURE }
    | some n =>
      if w.msgsnd = false then .error { l with nbytes := n, ret := -1 }
      else .ok { l with nbytes := n, ret := 0 }
  | .receiver =>
    match w.msgrcv with
    | .ok n => .ok { l with nbytes := n, received := true }
    | .error errno =>
      if errno ≠ ENOMSG then
        .error { l with nbytes := -1, errorNum := errno, ret := EXIT_FAILURE }
      else .ok { l with nbytes := -1, errorNum := errno, foundEmpty := true }

/-- The removal of the queue. -/
def Locals.remove (l : Locals) (ds : Ds) : Locals :=
  if (0 ≤ l.nbytes ∧ ds.msgQnum ≤ 0) ∨ (l.ret = EXIT_FAILURE ∧ l.errorNum ≠ ENOMSG) then
    l.call .rmid
  else l

/-- A failed state is made explicit. -/
def Locals.explicit (l : Locals) : Locals :=
  l.fail (if l.ret ≠ 0 then EXIT_FAILURE else EXIT_SUCCESS)

/-- What is behind `end`. The result is in `ret`. -/
def atEnd (p : ProgType) (w : Outcomes) (l : Locals) : Locals :=
  if p = .receiver ∧ l.qid ≠ -1 then
    match w.msgctlAtEnd with
    | none => (l.call .stat).fail (-1)
    -- whatever `ret` was, it is what `msgctl` has returned now
    | some ds => (((l.call .stat).fail 0).remove ds).explicit
  else l.explicit

/-- With an error or without one, what follows is `end`. -/
def reach : Except Locals Locals → Locals
  | .ok l => l
  | .error l => l

/-- The variables at `end`. -/
def beforeEnd (p : ProgType) (w : Outcomes) : Locals :=
  reach ((openQueue p w .start).bind fun l => (payload p w l).bind (transfer p w))

def main (p : ProgType) (w : Outcomes) : Locals := atEnd p w (beforeEnd p w)

/-! ## 2. What the end makes of it -/

variable {w : Outcomes} {l : Locals}

@[simp] theorem Locals.call_msgctls (cmd : Command) :
    (l.call cmd).msgctls = l.msgctls ++ [(l.qid, cmd)] := rfl

@[simp] theorem Locals.fail_msgctls (ret : Int) : (l.fail ret).msgctls = l.msgctls := rfl

@[simp] theorem Locals.explicit_msgctls : l.explicit.msgctls = l.msgctls := rfl

theorem Locals.explicit_ret : l.explicit.ret = EXIT_SUCCESS ↔ l.ret = 0 := by
  by_cases hret : l.ret = 0 <;> simp [explicit, fail, hret, EXIT_SUCCESS, EXIT_FAILURE]

/-- The removal is one more call, or nothing. -/
theorem Locals.remove_cases (ds : Ds) : l.remove ds = l.call .rmid ∨ l.remove ds = l := by
  unfold remove
  split
  · exact .inl rfl
  · exact .inr rfl

/-- What the receiver has learnt is not touched. -/
theorem atEnd_learnt (p : ProgType) :
    (atEnd p w l).obtained = l.obtained ∧ (atEnd p w l).received = l.received ∧
      (atEnd p w l).foundEmpty = l.foundEmpty := by
  unfold atEnd
  split
  · cases w.msgctlAtEnd with
    | none => exact ⟨rfl, rfl, rfl⟩
    | some ds =>
      obtain hremove | hremove := ((l.call .stat).fail 0).remove_cases ds
      all_goals
        simp only [hremove]
        exact ⟨rfl, rfl, rfl⟩
  · exact ⟨rfl, rfl, rfl⟩

/-- With a queue, the status is that of the last `msgctl`. -/
theorem atEnd_ret (hqid : l.qid ≠ -1) :
    (atEnd .receiver w l).ret = EXIT_SUCCESS ↔ w.msgctlAtEnd ≠ none := by
  unfold atEnd
  rw [if_pos ⟨rfl, hqid⟩]
  cases w.msgctlAtEnd with
  | none => simp [Locals.fail, EXIT_SUCCESS]
  | some ds =>
    have hret : (((l.call .stat).fail 0).remove ds).ret = 0 := by
      obtain hremove | hremove := ((l.call .stat).fail 0).remove_cases ds
      all_goals
        rw [hremove]
        rfl
    simp [Locals.explicit_ret, hret]

/-- Each call is a call on `qid`, and there is one. -/
theorem atEnd_msgctls (hqid : l.qid ≠ -1) :
    ∃ cmds : List Command, (atEnd .receiver w l).msgctls =
      l.msgctls ++ (l.qid, .stat) :: cmds.map (Prod.mk l.qid) := by
  unfold atEnd
  rw [if_pos ⟨rfl, hqid⟩]
  cases w.msgctlAtEnd with
  | none => exact ⟨[], rfl⟩
  | some ds =>
    obtain hremove | hremove := ((l.call .stat).fail 0).remove_cases ds
    · exact ⟨[.rmid], by simp [hremove]; rfl⟩
    · exact ⟨[], by simp [hremove]⟩

/-! ## 3. How the receiver comes to the end -/

def Locals.Learnt (l : Locals) : Prop := l.received = true ∨ l.foundEmpty = true

/-- `calloc` or `msgrcv` fails, and not because the queue is empty. -/
def TransferFails (w : Outcomes) : Prop :=
  w.calloc = false ∨ ∃ errno, w.msgrcv = .error errno ∧ errno ≠ ENOMSG

/-- A call after `msgget` fails so. -/
def Fails (w : Outcomes) : Prop :=
  w.msgctl = none ∨ (∃ ds, w.msgctl = some ds ∧ 0 < ds.msgQnum) ∧ TransferFails w

/-- Without a key, nothing but the status is set. -/
theorem beforeEnd_of_no_key (h : w.statQueue = false ∨ w.ftok = false) :
    ∃ ret, beforeEnd .receiver w = Locals.start.fail ret := by
  cases hstat : w.statQueue with
  | false => exact ⟨-1, by simp [beforeEnd, openQueue, hstat, Except.bind, reach]⟩
  | true =>
    have hftok : w.ftok = false := by simpa [hstat] using h
    exact ⟨EXIT_FAILURE, by simp [beforeEnd, openQueue, hstat, hftok, Except.bind, reach]⟩

/-- No `msgctl` is called from `calloc` on. -/
theorem reach_transfer (hnone : ¬ l.Learnt) :
    (reach (transfer .receiver w l)).qid = l.qid ∧
      (reach (transfer .receiver w l)).obtained = l.obtained ∧
      (reach (transfer .receiver w l)).msgctls = l.msgctls ∧
      ((reach (transfer .receiver w l)).Learnt ↔ ¬ TransferFails w) := by
  unfold transfer
  cases halloc : w.calloc with
  | false =>
    simp only [if_true]
    exact ⟨rfl, rfl, rfl, ⟨fun h => absurd h hnone, fun h => absurd (.inl halloc) h⟩⟩
  | true =>
    cases hrcv : w.msgrcv with
    | ok n => simp [reach, Locals.Learnt, TransferFails, halloc, hrcv]
    | error errno =>
      by_cases herrno : errno = ENOMSG
      · simp [reach, Locals.Learnt, TransferFails, halloc, hrcv, herrno]
      · have hfails : TransferFails w := .inr ⟨errno, hrcv, herrno⟩
        simp only [ne_eq, herrno, not_false_eq_true, if_true, reach, hfails, not_true, iff_false]
        exact ⟨rfl, rfl, rfl, hnone⟩

/-- It is called once before. -/
theorem reach_payload (hnone : ¬ l.Learnt) :
    (reach ((payload .receiver w l).bind (transfer .receiver w))).qid = l.qid ∧
      (reach ((payload .receiver w l).bind (transfer .receiver w))).obtained = l.obtained ∧
      (reach ((payload .receiver w l).bind (transfer .receiver w))).msgctls =
        l.msgctls ++ [(l.qid, .stat)] ∧
      ((reach ((payload .receiver w l).bind (transfer .receiver w))).Learnt ↔ ¬ Fails w) := by
  unfold payload
  cases hctl : w.msgctl with
  | none =>
    refine ⟨rfl, rfl, rfl, ?_⟩
    exact ⟨fun h => absurd h hnone, fun h => absurd (.inl hctl) h⟩
  | some ds =>
    by_cases hnum : 0 < ds.msgQnum
    · simp only [hnum, if_true, Except.bind]
      have htransfer := reach_transfer (w := w)
        (l := { l.call .stat with ret := 0, payloadSize := ds.msgCbytes }) hnone
      refine ⟨htransfer.1, htransfer.2.1, htransfer.2.2.1, htransfer.2.2.2.trans ?_⟩
      simp [Fails, hctl, hnum]
    · simp [hnum, Except.bind, reach, Locals.Learnt, Locals.call, Fails, hctl]

/-! ## 4. What the status says -/

/-- A success says that there was a message, or that there was none, and `msgctl` is called on the
queue of `msgget` only. -/
def Reports (w : Outcomes) : Prop :=
  ((main .receiver w).ret = EXIT_SUCCESS → (main .receiver w).Learnt) ∧
    ∀ c ∈ (main .receiver w).msgctls, (main .receiver w).obtained = some c.1

theorem main_learnt : (main .receiver w).Learnt ↔ (beforeEnd .receiver w).Learnt := by
  have hlearnt := atEnd_learnt (w := w) (l := beforeEnd .receiver w) .receiver
  simp only [Locals.Learnt, main, hlearnt]

/-- Without a key, `msgctl` is called on the queue with the number zero. -/
theorem not_reports_of_no_key (h : w.statQueue = false ∨ w.ftok = false) : ¬ Reports w := by
  obtain ⟨ret, hbefore⟩ := beforeEnd_of_no_key h
  intro hreports
  obtain ⟨cmds, hcalls⟩ := atEnd_msgctls (w := w) (l := Locals.start.fail ret)
    (by simp [Locals.fail, Locals.start])
  have hmain : main .receiver w = atEnd .receiver w (Locals.start.fail ret) := by
    rw [main, hbefore]
  have hmem : ((0 : Int), Command.stat) ∈ (main .receiver w).msgctls := by
    rw [hmain, hcalls]
    exact List.mem_append_right _ (List.mem_cons_self ..)
  have hobtained := hreports.2 _ hmem
  rw [hmain, (atEnd_learnt .receiver).1] at hobtained
  cases hobtained

theorem reports_of_msgget_none (hstat : w.statQueue = true) (hftok : w.ftok = true)
    (hget : w.msgget = none) : Reports w := by
  have hmain : main .receiver w = { Locals.start with qid := -1, ret := EXIT_FAILURE } := by
    simp [main, beforeEnd, openQueue, hstat, hftok, hget, Except.bind, reach, atEnd,
      Locals.explicit, Locals.fail, EXIT_FAILURE]
  unfold Reports
  rw [hmain]
  exact ⟨by simp [EXIT_FAILURE, EXIT_SUCCESS], by simp [Locals.start]⟩

theorem reports_of_msgget_some {qid : Nat} (hstat : w.statQueue = true) (hftok : w.ftok = true)
    (hget : w.msgget = some qid) : Reports w ↔ (Fails w → w.msgctlAtEnd = none) := by
  have hbefore : beforeEnd .receiver w =
      reach ((payload .receiver w ⟨-1, qid, 0, 0, 0, some qid, false, false, []⟩).bind
        (transfer .receiver w)) := by
    simp [beforeEnd, openQueue, hstat, hftok, hget, Except.bind, Locals.start]
  obtain ⟨hqid, hobtained, hcalls, hlearnt⟩ := reach_payload (w := w)
    (l := ⟨-1, qid, 0, 0, 0, some qid, false, false, []⟩) (by simp [Locals.Learnt])
  rw [← hbefore] at hqid hobtained hcalls hlearnt
  have hne : (beforeEnd .receiver w).qid ≠ -1 := by
    rw [hqid]
    simp only [ne_eq]
    omega
  have hown : ∀ c ∈ (main .receiver w).msgctls, (main .receiver w).obtained = some c.1 := by
    obtain ⟨cmds, hmain⟩ := atEnd_msgctls (w := w) hne
    rw [main, hmain, (atEnd_learnt .receiver).1, hcalls, hqid, hobtained]
    simp
  rw [Reports, main_learnt, hlearnt, main, atEnd_ret hne]
  constructor
  · intro hreports hfails
    by_contra hend
    exact hreports.1 hend hfails
  · intro hend
    exact ⟨fun hret hfails => hret (hend hfails), hown⟩

/-- The receiver reports what it has learnt unless there is no key, or a call after `msgget` fails
and the `msgctl` at the end does not. -/
theorem receiver_reports_iff (w : Outcomes) :
    Reports w ↔ w.statQueue = true ∧ w.ftok = true ∧
      (w.msgget ≠ none → Fails w → w.msgctlAtEnd = none) := by
  by_cases hkey : w.statQueue = true ∧ w.ftok = true
  · obtain ⟨hstat, hftok⟩ := hkey
    cases hget : w.msgget with
    | none => simp [reports_of_msgget_none hstat hftok hget, hstat, hftok]
    | some qid => simp [reports_of_msgget_some hstat hftok hget, hstat, hftok]
  · have hmissing : w.statQueue = false ∨ w.ftok = false := by
      rw [← Bool.not_eq_true, ← Bool.not_eq_true]
      exact Decidable.not_and_iff_or_not.mp hkey
    constructor
    · intro hreports
      exact absurd hreports (not_reports_of_no_key hmissing)
    · intro h
      exact absurd ⟨h.1, h.2.1⟩ hkey

/-- `calloc` fails, and the program is successful. -/
theorem not_reports_out_of_memory :
    ¬ Reports ⟨true, none, true, some 7, some ⟨2, 10⟩, false, true, none, true, .ok 0,
      some ⟨2, 10⟩⟩ := by
  intro hreports
  exact absurd (hreports.1 (by decide)) (by unfold Locals.Learnt; decide)

end SenderReceiver
end Labs
