import Labs.PosixQueue.Program
import Mathlib.Data.List.TakeDrop

/-!
# What arrives, and what is reported

No file makes the round trip, since the totals start at `-1` and each is one less than what it
counts: `never_round_trips`, over all the interleavings, with a run that is completed for every
file. The contents do arrive if no chunk is short (`contents_iff`): the short chunk at the end of
a larger file is sent with the NUL bytes behind it.

The invariant counts the messages. After `n` of them, what is received and what is in the queue is
the file cut at, or padded to, `n` times `payload_size` (`List.takeD`). The sender ends with the
first `n` for which `Ended` holds; `msg_sent` may have wrapped.

## One number for the whole state

The programs share nothing but the queue, and a run is an interleaving of the two. `Sent` describes
every reachable state by one number, how many messages have been sent. What the sender has read,
what it has in its buffer, what is in the queue and what the receiver has, are functions of that
number and of the file, up to where the messages are; so the step lemmas are two (`read_keeps`,
`send_keeps`) for the sender and one for the receiver, and no case of one party is split by the
place of the other.

The queue is ordered by priority, and all messages have the same one (`prios`), which makes it the
order of sending.

Lengths are wrapped where the source has an `int` or a `long`, so the results hold for files of any
size. A file with more chunks than an `int` counts is sent all the same, but `msg_sent` need not be
positive when it ends: hence the second half of `Whole`.

That a run exists is not implied by anything above: `never_round_trips` would be true of programs
that never finish. `completes` gives a schedule for every file, in which the receiver takes each
message as soon as the next one is there.
-/

namespace Labs
namespace PosixQueue

open Lib

/-! ## 1. Cutting and padding -/

section Padding

variable {α : Type} (x : α)

theorem takeD_eq_append (n : Nat) (l : List α) :
    l.takeD n x = l.take n ++ List.replicate (n - l.length) x := by
  induction n generalizing l with
  | zero => simp
  | succ n ih =>
    cases l with
    | nil => simp [List.replicate_succ]
    | cons a l => simp [ih]

/-- A padded front, in two parts. -/
theorem takeD_add (n k : Nat) (l : List α) :
    l.takeD (n + k) x = l.takeD n x ++ (l.drop n).takeD k x := by
  induction n generalizing l with
  | zero => simp
  | succ n ih =>
    rw [Nat.succ_add, List.takeD_succ, List.takeD_succ, ih, List.cons_append]
    cases l with
    | nil => simp
    | cons a l => simp

theorem takeD_eq_self_iff (n : Nat) (l : List α) : l.takeD n x = l ↔ n = l.length := by
  constructor
  · intro h
    rw [← List.takeD_length n l x, h]
  · rintro rfl
    rw [List.takeD_eq_take x (Nat.le_refl _), List.take_length]

/-- What `read` has put in front of a cleared buffer. -/
theorem read_take (n : Nat) (l : List α) :
    (l.take n ++ (List.replicate (n + 1) x).drop (l.take n).length).take n = l.takeD n x := by
  rw [takeD_eq_append, List.take_append, List.take_take, Nat.min_self, List.drop_replicate,
    List.take_replicate, List.length_take]
  congr 2
  omega

theorem read_drop (n : Nat) (l : List α) :
    (l.take n ++ (List.replicate (n + 1) x).drop (l.take n).length).drop n = [x] := by
  rw [List.drop_append, List.drop_eq_nil_of_le (by rw [List.length_take]; omega),
    List.nil_append, List.drop_replicate, List.drop_replicate, List.length_take]
  have hone : n + 1 - min n l.length - (n - min n l.length) = 1 := by omega
  rw [hone]
  rfl

end Padding

/-! ## 2. The sender -/

variable {file : RegularFile} {prio n : Nat}

/-- The sender stops if it finds this after `n` messages. -/
def Ended (file : RegularFile) (n : Nat) : Prop :=
  0 < wrap32 n ∧ file.bytes.length ≤ n * file.payloadSize

theorem RegularFile.payloadSize_eq_zero (h : file.payloadSize = 0) : file.bytes.length = 0 := by
  unfold payloadSize at h
  split at h
  · exact absurd h (by decide)
  · exact h

/-- The chunk that `read` returns after `n` messages. -/
def RegularFile.chunk (file : RegularFile) (n : Nat) : List UInt8 :=
  (file.bytes.drop (n * file.payloadSize)).take file.payloadSize

theorem ended_iff : Ended file n ↔ 0 < wrap32 n ∧ (file.chunk n).length = 0 := by
  unfold Ended RegularFile.chunk
  rw [List.length_take, List.length_drop]
  refine and_congr_right fun _ => ?_
  constructor
  · intro hle
    omega
  · intro hzero
    by_cases hsize : file.payloadSize = 0
    · rw [file.payloadSize_eq_zero hsize]
      exact Nat.zero_le _
    · omega

/-- What the sender has read and has in its buffer after `n` messages. -/
def Buffered (file : RegularFile) (n : Nat) (s : Sender) : SenderPlace → Prop
  | .reading => s.rest = file.bytes.drop (n * file.payloadSize) ∧
      s.payload = List.replicate (file.payloadSize + 1) NUL
  | .sending rbytes => s.rest = file.bytes.drop ((n + 1) * file.payloadSize) ∧
      rbytes = (file.chunk n).length ∧
      s.payload.take file.payloadSize =
        (file.bytes.drop (n * file.payloadSize)).takeD file.payloadSize NUL ∧
      s.payload.drop file.payloadSize = [NUL] ∧ ¬ Ended file n
  | .done => Ended file n

/-- The sender after `n` messages. -/
structure SenderAt (file : RegularFile) (n : Nat) (s : Sender) : Prop where
  msgSent : s.msgSent = wrap32 n
  nbytes : s.nbytes = wrap64 ((file.bytes.take (n * file.payloadSize)).length - 1)
  buffered : Buffered file n s s.place

theorem senderAt_start (file : RegularFile) : SenderAt file 0 (Sender.start file) where
  msgSent := rfl
  nbytes := by simp [Sender.start, wrap64]
  buffered := by simp [Sender.start, Buffered]

/-- The message after `n` others. -/
def message (file : RegularFile) (prio n : Nat) : Message :=
  ⟨prio, (file.bytes.drop (n * file.payloadSize)).takeD file.payloadSize NUL⟩

/-- The next chunk is what is read up to there. -/
theorem RegularFile.take_succ (file : RegularFile) (n : Nat) :
    file.bytes.take ((n + 1) * file.payloadSize) =
      file.bytes.take (n * file.payloadSize) ++ file.chunk n := by
  rw [Nat.succ_mul, List.take_add, chunk]

theorem read_keeps {s s' : Sender} {q q' : List Message} (hs : SenderAt file n s)
    (hplace : s.place = .reading)
    (h : sender file.payloadSize prio s q = some (s', q')) : q' = q ∧ SenderAt file n s' := by
  obtain ⟨hrest, hpayload⟩ : s.rest = _ ∧ s.payload = _ := by
    have hbuffered := hs.buffered
    rw [hplace] at hbuffered
    exact hbuffered
  have hchunk : s.rest.take file.payloadSize = file.chunk n := by rw [hrest, RegularFile.chunk]
  rw [sender, hplace] at h
  dsimp only at h
  rw [hchunk] at h
  cases h
  refine ⟨rfl, hs.msgSent, hs.nbytes, ?_⟩
  dsimp only
  split
  · rename_i hended
    rw [hs.msgSent] at hended
    exact ended_iff.mpr hended
  · rename_i hgoing
    rw [hs.msgSent] at hgoing
    refine ⟨?_, rfl, ?_, ?_, fun hended => hgoing (ended_iff.mp hended)⟩
    · show s.rest.drop file.payloadSize = _
      rw [hrest, List.drop_drop, Nat.succ_mul]
    · show List.take file.payloadSize (file.chunk n ++ s.payload.drop (file.chunk n).length) = _
      rw [hpayload]
      exact read_take NUL file.payloadSize _
    · show List.drop file.payloadSize (file.chunk n ++ s.payload.drop (file.chunk n).length) = _
      rw [hpayload]
      exact read_drop NUL file.payloadSize _

theorem send_keeps {s s' : Sender} {q q' : List Message} {rbytes : Nat}
    (hs : SenderAt file n s) (hplace : s.place = .sending rbytes)
    (h : sender file.payloadSize prio s q = some (s', q')) :
    mqSend MSG_MAX_NUM q (message file prio n) = some q' ∧ SenderAt file (n + 1) s' ∧
      ¬ Ended file n := by
  obtain ⟨hrest, hrbytes, htake, hdrop, hgoing⟩ :
      s.rest = _ ∧ rbytes = _ ∧ s.payload.take _ = _ ∧ s.payload.drop _ = _ ∧ _ := by
    have hbuffered := hs.buffered
    rw [hplace] at hbuffered
    exact hbuffered
  rw [sender, hplace] at h
  dsimp only at h
  rw [htake] at h
  obtain ⟨q₁, hsend, heq⟩ := Option.map_eq_some_iff.mp h
  cases heq
  refine ⟨hsend, ⟨?_, ?_, ?_⟩, hgoing⟩
  · show wrap32 (s.msgSent + 1) = wrap32 ((n + 1 : Nat) : Int)
    rw [hs.msgSent, wrap32_succ]
    rfl
  · show wrap64 (s.nbytes + rbytes) = _
    rw [hs.nbytes, wrap64_add, hrbytes, file.take_succ, List.length_append]
    congr 1
    push_cast
    ring
  · refine ⟨hrest, ?_⟩
    show List.replicate file.payloadSize NUL ++ s.payload.drop file.payloadSize = _
    rw [hdrop, List.replicate_succ']

/-! ## 3. What is in the queue -/

/-- The state after `n` messages. -/
structure Sent (file : RegularFile) (prio n : Nat) (s : State) : Prop where
  sender : SenderAt file n s.sender
  notBefore : ∀ k < n, ¬ Ended file k
  count : s.receiver.received.length + s.queue.length = n
  prios : ∀ m ∈ s.queue, m.prio = prio
  contents : s.receiver.received.flatten ++ payloads s.queue =
    file.bytes.takeD (n * file.payloadSize) NUL
  total : s.receiver.nbytes = wrap64 (s.receiver.received.flatten.length - 1)

theorem sent_init (file : RegularFile) (prio : Nat) : Sent file prio 0 (State.init file) where
  sender := senderAt_start file
  notBefore := fun k hk => absurd hk (Nat.not_lt_zero k)
  count := rfl
  prios := fun m hm => absurd hm List.not_mem_nil
  contents := by simp [State.init, Receiver.start]
  total := by simp [State.init, Receiver.start, wrap64]

/-- A message is put behind the others. -/
theorem Sent.send {s : State} {sender : Sender} {q : List Message} (h : Sent file prio n s)
    (hsend : mqSend MSG_MAX_NUM s.queue (message file prio n) = some q)
    (hsender : SenderAt file (n + 1) sender) (hgoing : ¬ Ended file n) :
    Sent file prio (n + 1) { s with sender, queue := q } := by
  obtain rfl : q = s.queue ++ [message file prio n] := mqSend_eq_append h.prios hsend
  refine ⟨hsender, ?_, ?_, ?_, ?_, h.total⟩
  · intro k hk
    rcases Nat.lt_succ_iff_lt_or_eq.mp hk with hlt | rfl
    · exact h.notBefore k hlt
    · exact hgoing
  · show s.receiver.received.length + (s.queue ++ [message file prio n]).length = n + 1
    rw [List.length_append, ← Nat.add_assoc, h.count]
    rfl
  · intro m hm
    rcases List.mem_append.mp hm with hm | hm
    · exact h.prios m hm
    · rw [List.mem_singleton.mp hm]
      rfl
  · show _ ++ payloads (s.queue ++ [message file prio n]) = _
    rw [payloads_append, ← List.append_assoc, h.contents, Nat.succ_mul, takeD_add]
    simp [message]

theorem Sent.receive {s : State} {msg : Message} {q : List Message} (h : Sent file prio n s)
    (hqueue : s.queue = msg :: q) :
    Sent file prio n { s with receiver := s.receiver.take msg.payload, queue := q } := by
  refine ⟨h.sender, h.notBefore, ?_, ?_, ?_, ?_⟩
  · have hcount := h.count
    rw [hqueue, List.length_cons] at hcount
    show (s.receiver.received ++ [msg.payload]).length + q.length = n
    rw [List.length_append, List.length_singleton]
    omega
  · intro m hm
    exact h.prios m (hqueue ▸ List.mem_cons_of_mem _ hm)
  · have hcontents := h.contents
    rw [hqueue, payloads_cons] at hcontents
    show (s.receiver.received ++ [msg.payload]).flatten ++ payloads q = _
    rw [← hcontents]
    simp
  · show (if 0 < msg.payload.length then _ else _) =
      wrap64 ((s.receiver.received ++ [msg.payload]).flatten.length - 1)
    rw [h.total, List.flatten_append, List.length_append]
    split
    · rw [wrap64_add]
      congr 1
      simp
      ring
    -- an empty payload is not counted
    · rename_i hempty
      simp [List.length_eq_zero_iff.mp (Nat.eq_zero_of_not_pos hempty)]

/-- Some number of messages has been sent. -/
def Counted (file : RegularFile) (prio : Nat) (s : State) : Prop := ∃ n, Sent file prio n s

theorem step_keeps {s s' : State} {p : Party} (h : Sent file prio n s)
    (hstep : step file prio s p = some s') : Counted file prio s' := by
  cases p with
  | sender =>
    obtain ⟨⟨sender', q'⟩, hmove, rfl⟩ := Option.map_eq_some_iff.mp hstep
    cases hplace : s.sender.place with
    | reading =>
      obtain ⟨rfl, hsender⟩ := read_keeps h.sender hplace hmove
      exact ⟨n, { h with sender := hsender }⟩
    | sending rbytes =>
      obtain ⟨hsend, hsender, hgoing⟩ := send_keeps h.sender hplace hmove
      exact ⟨n + 1, h.send hsend hsender hgoing⟩
    | done =>
      rw [sender, hplace] at hmove
      cases hmove
  | receiver =>
    obtain ⟨⟨receiver', q'⟩, hmove, rfl⟩ := Option.map_eq_some_iff.mp hstep
    refine ⟨n, ?_⟩
    rw [receiver] at hmove
    split at hmove
    · split at hmove
      · cases hmove
        exact { h with }
      · cases hmove
        exact { h with }
    · obtain ⟨⟨msg, q⟩, hreceive, heq⟩ := Option.map_eq_some_iff.mp hmove
      cases heq
      have hqueue : s.queue = msg :: q := by
        cases hq : s.queue with
        | nil =>
          rw [hq] at hreceive
          cases hreceive
        | cons msg' q' =>
          rw [hq] at hreceive
          cases hreceive
          rfl
      exact h.receive hqueue
    · split at hmove
      · cases hmove
        exact { h with }
      · cases hmove
        exact { h with }
    · cases hmove
    · cases hmove

/-- **Every state is the one after some number of messages.** -/
theorem Reachable.counted {s : State} (h : Reachable file prio s) : Counted file prio s := by
  refine Reaches.invariant ⟨0, sent_init file prio⟩ ?_ h
  intro s p s' hs _ hstep
  obtain ⟨n, hsent⟩ := hs
  exact step_keeps hsent hstep

/-! ## 4. The end of a run -/

/-- When the contents arrive: the last chunk is not short, and `msg_sent` is positive behind it. -/
def Whole (file : RegularFile) : Prop :=
  file.bytes.length ≤ MSG_MAX_SIZE ∨
    MSG_MAX_SIZE ∣ file.bytes.length ∧ 0 < wrap32 ((file.bytes.length / MSG_MAX_SIZE : Nat) : Int)

theorem Sent.ended {s : State} (h : Sent file prio n s) (hdone : s.sender.place = .done) :
    Ended file n := by
  have hbuffered := h.sender.buffered
  rw [hdone] at hbuffered
  exact hbuffered

/-- The sender reports one less than the size, the receiver one less than it has received. -/
theorem totals {s : State} (h : Reachable file prio s) (hcompleted : s.Completed) :
    s.sender.nbytes = file.bytes.length - 1 ∧
      s.receiver.nbytes = wrap64 (s.receiver.received.flatten.length - 1) := by
  obtain ⟨n, hsent⟩ := h.counted
  refine ⟨?_, hsent.total⟩
  obtain ⟨-, hle⟩ := hsent.ended hcompleted.1
  have hsize := file.size_le
  rw [hsent.sender.nbytes, List.take_of_length_le hle]
  exact wrap64_of_inRange (by omega) (by omega)

/-- The number of messages is right if and only if the contents are. -/
theorem whole_iff (hended : Ended file n) (hnot : ∀ k < n, ¬ Ended file k) :
    n * file.payloadSize = file.bytes.length ↔ Whole file := by
  obtain ⟨hpos, hle⟩ := hended
  by_cases hbig : MSG_MAX_SIZE < file.bytes.length
  · have hsize : file.payloadSize = MSG_MAX_SIZE := if_pos hbig
    rw [hsize] at hle ⊢
    constructor
    · intro heq
      have hdiv : file.bytes.length / MSG_MAX_SIZE = n := by
        rw [← heq]
        exact Nat.mul_div_cancel n (by decide)
      exact .inr ⟨heq ▸ Nat.dvd_mul_left _ _, by rw [hdiv]; exact hpos⟩
    · rintro (hsmall | ⟨hdvd, hcount⟩)
      · exact absurd hbig (Nat.not_lt.mpr hsmall)
      -- the sender would have stopped after the full chunks
      · have hmul := Nat.div_mul_cancel hdvd
        have hfirst : n ≤ file.bytes.length / MSG_MAX_SIZE := by
          by_contra hlt
          exact hnot _ (Nat.lt_of_not_le hlt) ⟨hcount, by rw [hsize, hmul]⟩
        have := Nat.mul_le_mul_right MSG_MAX_SIZE hfirst
        omega
  · have hsize : file.payloadSize = file.bytes.length := if_neg hbig
    have hone : n = 1 := by
      have hfirst : ¬ 1 < n := fun hlt =>
        hnot 1 hlt ⟨by decide, by rw [hsize, Nat.one_mul]⟩
      have hzero : n ≠ 0 := by
        rintro rfl
        exact absurd hpos (by decide)
      omega
    refine ⟨fun _ => .inl (Nat.le_of_not_lt hbig), fun _ => ?_⟩
    rw [hone, hsize, Nat.one_mul]

/-- The contents arrive, or NUL bytes behind them. -/
theorem contents_iff {s : State} (h : Reachable file prio s) (hcompleted : s.Completed) :
    s.receiver.received.flatten = file.bytes ↔ Whole file := by
  obtain ⟨n, hsent⟩ := h.counted
  have hcontents := hsent.contents
  rw [hcompleted.2.2, payloads_nil, List.append_nil] at hcontents
  rw [hcontents, takeD_eq_self_iff, whole_iff (hsent.ended hcompleted.1) hsent.notBefore]

/-! ## 5. A run for every file -/

/-- There is one message in the queue, the receiver is about to take it, and the sender to read. -/
structure Waiting (file : RegularFile) (prio n : Nat) (s : State) : Prop where
  reachable : Reachable file prio s
  sent : Sent file prio n s
  reading : s.sender.place = .reading
  receiving : s.receiver.place = .receiving
  msgNum : s.receiver.msgNum = 1
  length : s.queue.length = 1

theorem step_read (s : State) (hsent : Sent file prio n s) (hplace : s.sender.place = .reading) :
    ∃ sender, step file prio s .sender = some { s with sender } ∧
      (Ended file n → sender.place = .done) ∧
      (¬ Ended file n → ∃ rbytes, sender.place = .sending rbytes) := by
  have hchunk : s.sender.rest.take file.payloadSize = file.chunk n := by
    have hbuffered := hsent.sender.buffered
    rw [hplace] at hbuffered
    rw [hbuffered.1, RegularFile.chunk]
  rw [step, sender, hplace]
  refine ⟨_, rfl, fun hended => ?_, fun hgoing => ⟨(file.chunk n).length, ?_⟩⟩
  · dsimp only
    rw [hchunk, hsent.sender.msgSent]
    exact if_pos (ended_iff.mp hended)
  · dsimp only
    rw [hchunk, hsent.sender.msgSent]
    exact if_neg fun h => hgoing (ended_iff.mpr h)

theorem step_send (s : State) {rbytes : Nat} (hsent : Sent file prio n s)
    (hplace : s.sender.place = .sending rbytes) (hroom : s.queue.length < MSG_MAX_NUM) :
    ∃ sender q, step file prio s .sender = some { s with sender, queue := q } ∧
      sender.place = .reading ∧ q.length = s.queue.length + 1 := by
  rw [step, sender, hplace]
  dsimp only
  rw [mqSend_of_lt hsent.prios hroom]
  exact ⟨_, _, rfl, rfl, List.length_append⟩

theorem step_receive (file : RegularFile) (prio : Nat) (s : State) {k : Nat} (hplace : s.receiver.place = .receiving)
    (hnum : s.receiver.msgNum = 1) (hlength : s.queue.length = k + 1) :
    ∃ receiver q, step file prio s .receiver = some { s with receiver, queue := q } ∧
      receiver.place = .again ∧ q.length = k ∧
      receiver.received.length = s.receiver.received.length + 1 := by
  obtain ⟨msg, q, hqueue⟩ := List.exists_cons_of_length_eq_add_one hlength
  rw [hqueue] at hlength
  rw [step, receiver, hplace, hqueue]
  refine ⟨s.receiver.take msg.payload, q, rfl, ?_, Nat.succ.inj hlength, List.length_append⟩
  show (if 0 < s.receiver.msgNum - 1 then _ else _) = _
  rw [hnum]
  rfl

theorem step_again (file : RegularFile) (prio : Nat) (s : State) (hplace : s.receiver.place = .again) :
    ∃ receiver, step file prio s .receiver = some { s with receiver } ∧
      receiver.place = (if 0 < s.queue.length then .receiving else .done) ∧
      receiver.msgNum = s.queue.length ∧ receiver.received = s.receiver.received := by
  rw [step, receiver, hplace]
  dsimp only
  split
  · exact ⟨_, rfl, rfl, rfl, rfl⟩
  · exact ⟨_, rfl, rfl, rfl, rfl⟩

theorem Reachable.next {s s' : State} {p : Party} (h : Reachable file prio s)
    (hstep : step file prio s p = some s') : Reachable file prio s' :=
  Reaches.next h trivial hstep

/-- The sender finds the end of the file, the receiver takes the last message. -/
theorem Waiting.completes {s : State} (h : Waiting file prio n s) (hended : Ended file n) :
    ∃ s', Reachable file prio s' ∧ s'.Completed := by
  obtain ⟨sender, hread, hdone, -⟩ := step_read s h.sent h.reading
  obtain ⟨receiver, q, hreceive, hagain, hempty, -⟩ :=
    step_receive file prio { s with sender } h.receiving h.msgNum h.length
  obtain ⟨receiver', hlast, hplace, -, -⟩ :=
    step_again file prio ⟨sender, receiver, q⟩ hagain
  refine ⟨_, ((h.reachable.next hread).next hreceive).next hlast, hdone hended, ?_, ?_⟩
  · rw [hplace]
    exact if_neg (by rw [hempty]; decide)
  · exact List.eq_nil_of_length_eq_zero hempty

/-- The sender puts a message behind the one that the receiver takes. -/
theorem Waiting.next {s : State} (h : Waiting file prio n s) (hgoing : ¬ Ended file n) :
    ∃ s', Waiting file prio (n + 1) s' := by
  obtain ⟨sender, hread, -, hsending⟩ := step_read s h.sent h.reading
  obtain ⟨rbytes, hplace⟩ := hsending hgoing
  have hread := h.reachable.next hread
  obtain ⟨n₁, hsent₁⟩ := hread.counted
  have hroom : s.queue.length < MSG_MAX_NUM := by
    rw [h.length]
    decide
  obtain ⟨sender', q, hsend, hreading, htwo⟩ := step_send { s with sender } hsent₁ hplace hroom
  obtain ⟨receiver, q', hreceive, hagain, hone, hreceived⟩ :=
    step_receive file prio { s with sender := sender', queue := q }
      h.receiving h.msgNum htwo
  obtain ⟨receiver', hstay, hplace', hnum, hsame⟩ :=
    step_again file prio ⟨sender', receiver, q'⟩ hagain
  have hlength : q'.length = 1 := hone.trans h.length
  have hreach := ((hread.next hsend).next hreceive).next hstay
  obtain ⟨n', hsent'⟩ := hreach.counted
  -- the number of the messages is in the state
  have hn : n' = n + 1 := by
    have hcount : receiver'.received.length + q'.length = n' := hsent'.count
    have hcount₀ := h.sent.count
    rw [hsame, hreceived, hlength] at hcount
    rw [h.length] at hcount₀
    dsimp only at hcount
    omega
  refine ⟨_, hreach, hn ▸ hsent', hreading, ?_, hnum.trans hlength, hlength⟩
  rw [hplace']
  exact if_pos (by rw [hlength]; decide)

/-- The first message is sent whatever is read. -/
theorem waiting_one (file : RegularFile) (prio : Nat) : ∃ s, Waiting file prio 1 s := by
  have hgoing : ¬ Ended file 0 := fun hended => absurd hended.1 (by decide)
  obtain ⟨sender, hread, -, hsending⟩ :=
    step_read (State.init file) (sent_init file prio) rfl
  obtain ⟨rbytes, hplace⟩ := hsending hgoing
  have hread : Reachable file prio _ := Reaches.start.next trivial hread
  obtain ⟨n, hsent⟩ := hread.counted
  obtain ⟨sender', q, hsend, hreading, hlength⟩ :=
    step_send _ hsent hplace (by decide : 0 < MSG_MAX_NUM)
  have hlength : q.length = 1 := hlength
  have hstart : step file prio ⟨sender', Receiver.start, q⟩ .receiver =
      some ⟨sender', { Receiver.start with place := .receiving, msgNum := 1 }, q⟩ := by
    show Option.map _ (receiver Receiver.start q) = _
    simp [receiver, Receiver.start, hlength]
  have hreach := (hread.next hsend).next hstart
  obtain ⟨n', hsent'⟩ := hreach.counted
  obtain rfl : n' = 1 := by
    have hcount : 0 + q.length = n' := hsent'.count
    omega
  exact ⟨_, hreach, hsent', hreading, rfl, rfl, hlength⟩

/-- `msg_sent` is one after so many messages, and the file is read. -/
theorem ended_late (file : RegularFile) : Ended file (1 + 4294967296 * file.bytes.length) := by
  constructor
  · have hone : wrap32 ((1 + 4294967296 * file.bytes.length : Nat) : Int) = 1 := by
      rw [wrap32]
      push_cast
      exact Int.add_mul_bmod_self_left 1 4294967296 _
    rw [hone]
    decide
  · by_cases hzero : file.payloadSize = 0
    · rw [file.payloadSize_eq_zero hzero]
      exact Nat.zero_le _
    · calc file.bytes.length ≤ 1 + 4294967296 * file.bytes.length := by omega
        _ ≤ (1 + 4294967296 * file.bytes.length) * file.payloadSize :=
          Nat.le_mul_of_pos_right _ (Nat.pos_of_ne_zero hzero)

theorem Waiting.runs {k : Nat} {s : State} (h : Waiting file prio n s)
    (hended : Ended file (n + k)) : ∃ s', Reachable file prio s' ∧ s'.Completed := by
  induction k generalizing n s with
  | zero => exact h.completes hended
  | succ k ih =>
    by_cases hnow : Ended file n
    · exact h.completes hnow
    · obtain ⟨s', hs'⟩ := h.next hnow
      exact ih hs' (by rwa [Nat.add_right_comm, Nat.add_assoc])

/-- **The sender and the receiver can get every file through the queue.** -/
theorem completes (file : RegularFile) (prio : Nat) :
    ∃ s, Reachable file prio s ∧ s.Completed := by
  obtain ⟨s, hs⟩ := waiting_one file prio
  exact hs.runs (ended_late file)

/-- **No file makes the round trip**: every file can be sent and drained, and whenever it is, the
    sender reports one byte less than it has. -/
theorem never_round_trips (file : RegularFile) (prio : Nat) :
    (∃ s, Reachable file prio s ∧ s.Completed) ∧
      ∀ s, Reachable file prio s → s.Completed → ¬ s.RoundTrip file := by
  refine ⟨completes file prio, fun s hs hcompleted => ?_⟩
  rintro ⟨-, htotal, -⟩
  have hless := (totals hs hcompleted).1
  omega

def abc : RegularFile := ⟨ascii "abc", by decide⟩

/-- The three bytes arrive, and both programs report two. -/
theorem abc_reports_two : ∃ s, Reachable abc 1 s ∧ s.Completed ∧
    s.receiver.received.flatten = abc.bytes ∧ s.sender.nbytes = 2 ∧ s.receiver.nbytes = 2 ∧
    ¬ s.RoundTrip abc := by
  have hrun : run (step abc 1)
      [.sender, .sender, .receiver, .receiver, .sender, .receiver] (State.init abc) =
        some ⟨⟨.done, [], List.replicate 4 NUL, 2, 1⟩, ⟨.done, 0, 2, 1, [ascii "abc"]⟩, []⟩ := by
    decide
  refine ⟨_, reaches_of_run (fun _ _ _ => trivial) .start hrun, ⟨rfl, rfl, rfl⟩, rfl, rfl, rfl, ?_⟩
  rintro ⟨-, hsize, -⟩
  exact absurd hsize (by decide)

end PosixQueue
end Labs
