import Labs.AfLocal.Server
import Labs.Lib.Frames

/-!
# One reply for every frame

What the server answers is a function of the *stream* of a connection and not of its chunks:
after the bytes `rcvd` the buffer holds `leftover NEWLINE rcvd`, the replies sent are
`receipts rcvd`, and `i` is the number of newlines seen (`AtRecv`). `onData_spec` is the step:
from such a state a chunk either overflows the buffer or leads to such a state for the longer
stream. `serveConn_spec` carries it along a connection and `run_eq_map` says that a connection
starts from nothing that an earlier one left.

The counter is an `int`, so the number in a reply is the wrap of the number of the frame.

## Streams, not chunks

`recv` returns what has arrived, so the server sees cuts that the client has not made. The statement
for a connection must not depend on them, and the way to get there is an invariant that does not
mention chunks: the state at `recv` is a function of all the bytes so far (`AtRecv`). The three
fields of it are the buffer, its bound, and the counter, each as the stream has it.

One chunk is two steps of the source. It is appended to what is left of the last frame, and a loop
takes out one frame after the other; `drainFrames_spec` is that loop, by induction on its fuel, of
which there is one for each byte. What it leaves is the leftover of the longer stream, because
frames and leftover of a concatenation are those of the leftover and the rest (`Lib.Frames`).

A connection that is dropped has answered what came before the chunk that was too long, and nothing
of that chunk, although it may begin with the end of a frame. Where this happens is a matter of the
cuts (`Overflows`), and which streams are safe from them is the subject of `Chunking`.
-/

namespace Labs
namespace AfLocal

open Lib

/-- The reply to the frame `f`, carrying the number `n`. -/
def receipt (n : Int) (f : List UInt8) : List UInt8 :=
  (ascii "Frame" ++ decimal n ++ ascii ": " ++ cstr f ++ ascii " received!\n").take
    (FRAME_BUF_SIZ - 1) ++ [NUL]

/-- The replies to a stream, its frames being numbered by a C `int` from `0`. -/
def receipts (s : List UInt8) : List (List UInt8) :=
  (frames NEWLINE s).mapIdx fun k f => receipt (wrap32 k) f

/-- The replies that a chunk adds once `rcvd` has been received. -/
def newReceipts (rcvd buf : List UInt8) : List (List UInt8) :=
  (frames NEWLINE (leftover NEWLINE rcvd ++ buf)).mapIdx fun k f =>
    receipt (wrap32 (rcvd.count NEWLINE + k)) f

/-- The invariant of the inner loop: where `main` is when it calls `recv` after `rcvd`. -/
structure AtRecv (rcvd : List UInt8) (s : Server) : Prop where
  pending : s.pending = leftover NEWLINE rcvd
  bound : s.frameNbytes ≤ FRAME_BUF_SIZ
  counter : s.i = wrap32 (rcvd.count NEWLINE)

theorem AtRecv.fresh : AtRecv [] Server.fresh :=
  ⟨by simp [Server.pending, Server.fresh], Nat.zero_le _, by simp [Server.fresh]⟩

theorem AtRecv.length {rcvd : List UInt8} {s : Server} (h : AtRecv rcvd s) :
    (leftover NEWLINE rcvd).length = s.frameNbytes := by
  rw [← h.pending]
  exact Block.length_read (by rw [Nat.zero_add]; exact h.bound)

/-! ## 1. A reply -/

theorem frameText_nul_free (i : Int) (prec : Nat) (p : List UInt8) :
    NUL ∉ frameText i prec p := by
  intro h
  simp only [frameText, List.mem_append] at h
  rcases h with (((h | h) | h) | h) | h
  · exact absurd h (by decide)
  · exact decimal_nul_free i h
  · exact absurd h (by decide)
  · exact cstr_nul_free _ h
  · exact absurd h (by decide)

theorem reply_eq_receipt (i : Int) (k : Nat) (p : List UInt8) :
    reply i k p = receipt i (p.take k) :=
  sent_snprintf (frameText_nul_free i k p)

theorem receipts_append (rcvd buf : List UInt8) :
    receipts (rcvd ++ buf) = receipts rcvd ++ newReceipts rcvd buf := by
  have hlen : (frames NEWLINE rcvd).length = rcvd.count NEWLINE := length_frames rcvd
  simp only [receipts, newReceipts, frames_append rcvd buf, List.mapIdx_append, hlen]
  refine congrArg _ (List.mapIdx_eq_mapIdx_iff.mpr fun k hk => ?_)
  rw [Nat.cast_add, Int.add_comm]

/-! ## 2. The loop over the frames of the buffer -/

/-- **The inner loop answers every frame of the bytes it is given**, in order, and leaves
    their leftover; one unit of fuel for each byte is enough. -/
theorem drainFrames_spec : ∀ (fuel n : Nat) (p : List UInt8), p.length ≤ fuel →
    drainFrames fuel (wrap32 n) p =
      ((frames NEWLINE p).mapIdx fun k f => receipt (wrap32 (n + k)) f,
        wrap32 (n + p.count NEWLINE), leftover NEWLINE p) := by
  intro fuel
  induction fuel with
  | zero =>
    intro n p hp
    have : p = [] := List.eq_nil_of_length_eq_zero (Nat.le_zero.mp hp)
    subst this
    simp [drainFrames]
  | succ fuel ih =>
    intro n p hp
    cases hm : memchr p NEWLINE with
    | none =>
      have hfree : NEWLINE ∉ p := memchr_eq_none.mp hm
      simp [drainFrames, hm, frames_of_not_mem hfree, leftover_of_not_mem hfree,
        List.count_eq_zero_of_not_mem hfree]
    | some k =>
      obtain ⟨hsplit, hfree⟩ := memchr_eq_some hm
      have hlen : (p.drop (k + 1)).length ≤ fuel := by
        have := congrArg List.length hsplit
        simp only [List.length_append, List.length_cons] at this
        omega
      have hstep := ih (n + 1) (p.drop (k + 1)) hlen
      have hnum : wrap32 (wrap32 (n : Int) + 1) = wrap32 ((n + 1 : Nat) : Int) := by
        rw [wrap32_succ, Nat.cast_succ]
      have hcount : p.count NEWLINE = (p.drop (k + 1)).count NEWLINE + 1 := by
        conv_lhs => rw [hsplit]
        rw [List.count_append, List.count_eq_zero_of_not_mem hfree, List.count_cons_self,
          Nat.zero_add]
      have hframes : frames NEWLINE p = p.take k :: frames NEWLINE (p.drop (k + 1)) := by
        conv_lhs => rw [hsplit]
        exact frames_cons_frame hfree _
      have hleft : leftover NEWLINE p = leftover NEWLINE (p.drop (k + 1)) := by
        conv_lhs => rw [hsplit]
        exact leftover_cons_frame hfree _
      rw [drainFrames, hm]
      dsimp only
      rw [hnum, hstep, hframes, hleft, hcount, reply_eq_receipt, List.mapIdx_cons]
      simp only [Prod.mk.injEq, List.cons.injEq, and_true]
      refine ⟨⟨by simp, List.mapIdx_eq_mapIdx_iff.mpr fun j hj => ?_⟩, ?_⟩
      · push_cast
        rw [Int.add_right_comm, Int.add_assoc]
      · push_cast
        rw [Int.add_right_comm, Int.add_assoc]

/-! ## 3. One chunk -/

theorem onData_overflow {rcvd buf : List UInt8} {s : Server} (h : AtRecv rcvd s)
    (hbig : FRAME_BUF_SIZ < (leftover NEWLINE rcvd).length + buf.length) :
    onData s buf = .dropped := by
  rw [h.length] at hbig
  exact if_pos hbig

/-- **A chunk that fits takes the state after `rcvd` to the state after `rcvd ++ buf`**, and
    its replies are the ones the stream gained. -/
theorem onData_fits {rcvd buf : List UInt8} {s : Server} (h : AtRecv rcvd s)
    (hfit : (leftover NEWLINE rcvd).length + buf.length ≤ FRAME_BUF_SIZ) :
    ∃ s', onData s buf = .loop s' (newReceipts rcvd buf) ∧ AtRecv (rcvd ++ buf) s' := by
  have hlen := h.length
  rw [hlen] at hfit
  obtain ⟨fb, hw⟩ := Block.write_of_le (b := s.frameBuf) hfit
  have hread : fb.read 0 (s.frameNbytes + buf.length) = leftover NEWLINE rcvd ++ buf := by
    rw [Block.read_write_append hw, ← h.pending]
    rfl
  have hcut : leftover NEWLINE (rcvd ++ buf) = leftover NEWLINE (leftover NEWLINE rcvd ++ buf) :=
    leftover_append rcvd buf
  have hnot : ¬ s.frameNbytes + buf.length > FRAME_BUF_SIZ := Nat.not_lt.mpr hfit
  have hcount : ((rcvd ++ buf).count NEWLINE : Int)
      = rcvd.count NEWLINE + (leftover NEWLINE rcvd ++ buf).count NEWLINE := by
    have hz : (leftover NEWLINE rcvd).count NEWLINE = 0 :=
      List.count_eq_zero_of_not_mem (leftover_sep_free rcvd)
    rw [List.count_append, List.count_append, hz]
    push_cast
    omega
  unfold onData
  rw [if_neg hnot]
  simp only [hw, hread]
  cases hm : memchr (leftover NEWLINE rcvd ++ buf) NEWLINE with
  | none =>
    have hfree : NEWLINE ∉ leftover NEWLINE rcvd ++ buf := memchr_eq_none.mp hm
    refine ⟨{ s with frameBuf := fb, frameNbytes := s.frameNbytes + buf.length }, ?_,
      ?_, hfit, ?_⟩
    · simp [newReceipts, frames_of_not_mem hfree]
    · rw [hcut, leftover_of_not_mem hfree]
      exact hread
    · show s.i = _
      rw [hcount, List.count_eq_zero_of_not_mem hfree, h.counter]
      simp
  | some k =>
    have hdrain := drainFrames_spec (s.frameNbytes + buf.length) (rcvd.count NEWLINE)
      (leftover NEWLINE rcvd ++ buf) (by rw [List.length_append, hlen])
    rw [← h.counter] at hdrain
    simp only [hdrain]
    split
    · rename_i hz
      refine ⟨_, rfl, ?_, Nat.zero_le _, ?_⟩
      · rw [hcut, List.eq_nil_of_length_eq_zero hz]
        exact Block.read_zero_len _ _
      · rw [hcount]
    · have hle : 0 + (leftover NEWLINE (leftover NEWLINE rcvd ++ buf)).length ≤ FRAME_BUF_SIZ := by
        have := length_leftover_le NEWLINE (leftover NEWLINE rcvd ++ buf)
        rw [List.length_append, hlen] at this
        omega
      obtain ⟨fb', hw'⟩ := Block.write_of_le (b := fb) hle
      simp only [hw']
      refine ⟨_, rfl, ?_, by simpa using hle, ?_⟩
      · rw [hcut]
        exact Block.read_write_start hw'
      · rw [hcount]

/-! ## 4. One connection -/

/-- The bytes of a connection that reach `frame_buf`: all of them, or those before the first
    chunk that overflows it. -/
def accepted : List UInt8 → List Chunk → List UInt8
  | rcvd, [] => rcvd
  | rcvd, c :: cs =>
    if FRAME_BUF_SIZ < (leftover NEWLINE rcvd).length + c.bytes.length then rcvd
    else accepted (rcvd ++ c.bytes) cs

/-- Some chunk does not fit behind the frame that is still open when it arrives. -/
def Overflows : List UInt8 → List Chunk → Prop
  | _, [] => False
  | rcvd, c :: cs =>
    FRAME_BUF_SIZ < (leftover NEWLINE rcvd).length + c.bytes.length ∨
      Overflows (rcvd ++ c.bytes) cs

theorem accepted_of_not_overflows : ∀ {cs : List Chunk} {rcvd : List UInt8},
    ¬ Overflows rcvd cs → accepted rcvd cs = rcvd ++ stream cs
  | [], rcvd, _ => by simp [accepted, stream]
  | c :: cs, rcvd, h => by
    obtain ⟨h1, h2⟩ := not_or.mp h
    rw [accepted, if_neg h1, accepted_of_not_overflows h2]
    simp [stream]

/-- What `serveConn` does from a state that has received `rcvd`. -/
structure ServedFrom (rcvd : List UInt8) (cs : List Chunk) (r : Served) : Prop where
  sent : receipts rcvd ++ r.sent = receipts (accepted rcvd cs)
  dropped : Overflows rcvd cs → r.ending = .dropped
  disconnected : ¬ Overflows rcvd cs →
    r.ending = .disconnected ∧ r.atRecv.length = cs.length + 1
  atRecv : ∀ j s, r.atRecv[j]? = some s → AtRecv (rcvd ++ stream (cs.take j)) s

theorem serveConn_spec : ∀ {cs : List Chunk} {rcvd : List UInt8} {s : Server},
    AtRecv rcvd s → ServedFrom rcvd cs (serveConn s cs) := by
  intro cs
  induction cs with
  | nil =>
    intro rcvd s h
    refine ⟨by simp [serveConn, accepted], fun h' => h'.elim, fun _ => ⟨rfl, rfl⟩, ?_⟩
    intro j st hj
    cases j with
    | zero =>
      have : s = st := by simpa [serveConn] using hj
      subst this
      simpa [stream] using h
    | succ j => exact absurd hj (by simp [serveConn])
  | cons c cs ih =>
    intro rcvd s h
    by_cases hbig : FRAME_BUF_SIZ < (leftover NEWLINE rcvd).length + c.bytes.length
    · have hturn := onData_overflow h hbig
      have hserve : serveConn s (c :: cs) = { atRecv := [s], sent := [], ending := .dropped } := by
        rw [serveConn, hturn]
      rw [hserve]
      refine ⟨by simp [accepted, hbig], fun _ => rfl, fun hno => (hno (Or.inl hbig)).elim, ?_⟩
      intro j st hj
      cases j with
      | zero =>
        have : s = st := by simpa using hj
        subst this
        simpa [stream] using h
      | succ j => exact absurd hj (by simp)
    · obtain ⟨s', hturn, hs'⟩ := onData_fits h (Nat.not_lt.mp hbig)
      have hrest := ih hs'
      have hserve : serveConn s (c :: cs) =
          { serveConn s' cs with
            atRecv := s :: (serveConn s' cs).atRecv
            sent := newReceipts rcvd c.bytes ++ (serveConn s' cs).sent } := by
        rw [serveConn, hturn]
      rw [hserve]
      refine ⟨?_, ?_, ?_, ?_⟩
      · rw [← List.append_assoc, ← receipts_append, hrest.sent, accepted, if_neg hbig]
      · intro ho
        exact hrest.dropped (ho.resolve_left hbig)
      · intro hno
        obtain ⟨he, hl⟩ := hrest.disconnected fun ho => hno (Or.inr ho)
        exact ⟨he, by simp [hl]⟩
      · intro j st hj
        cases j with
        | zero =>
          have : s = st := by simpa using hj
          subst this
          simpa [stream] using h
        | succ j =>
          have := hrest.atRecv j st (by simpa using hj)
          simpa [stream, List.append_assoc] using this

theorem serveConn_ending {cs : List Chunk} {rcvd : List UInt8} {s : Server}
    (h : AtRecv rcvd s) : (serveConn s cs).ending ≠ .fault := by
  have hs : ServedFrom rcvd cs (serveConn s cs) := serveConn_spec h
  by_cases ho : Overflows rcvd cs
  · rw [hs.dropped ho]
    exact Ending.noConfusion
  · rw [(hs.disconnected ho).1]
    exact Ending.noConfusion

/-! ## 5. All connections -/

/-- **Every connection is served as if it were the first.** -/
theorem run_eq_map (conns : List (List Chunk)) :
    run .fresh conns = conns.map (serveConn .fresh) := by
  induction conns with
  | nil => rfl
  | cons conn conns ih =>
    have hserve : serveConn { Server.fresh with i := 0 } conn = serveConn .fresh conn := rfl
    have hne : (serveConn .fresh conn).ending ≠ .fault := serveConn_ending AtRecv.fresh
    rw [run, hserve, List.map_cons, ← ih]
    cases he : (serveConn .fresh conn).ending with
    | fault => exact absurd he hne
    | disconnected => rfl
    | dropped => rfl

/-- What is promised of one connection, frame `k` being answered under the number `num k`. It is
    dropped for a chunk that overflows the buffer and for nothing else, and the frames received before
    that chunk are answered. -/
structure Framed (num : Nat → Int) (cs : List Chunk) (r : Served) : Prop where
  no_fault : r.ending ≠ .fault
  drops : r.ending = .dropped ↔ Overflows [] cs
  before : r.sent = (frames NEWLINE (accepted [] cs)).mapIdx fun k f => receipt (num k) f
  replies : r.ending ≠ .dropped →
    r.sent = (frames NEWLINE (stream cs)).mapIdx fun k f => receipt (num k) f
  recvs : r.ending ≠ .dropped → r.atRecv.length = cs.length + 1
  pending : ∀ j s, r.atRecv[j]? = some s →
    s.pending = leftover NEWLINE (stream (cs.take j)) ∧ NEWLINE ∉ s.pending ∧
      s.pending.length = s.frameNbytes ∧ s.frameNbytes ≤ FRAME_BUF_SIZ

theorem serveConn_framed (cs : List Chunk) :
    Framed (fun k => wrap32 k) cs (serveConn .fresh cs) := by
  have hs : ServedFrom [] cs (serveConn .fresh cs) := serveConn_spec AtRecv.fresh
  have hkept : (serveConn .fresh cs).ending ≠ .dropped → ¬ Overflows [] cs :=
    fun hne ho => hne (hs.dropped ho)
  have hdrops : (serveConn .fresh cs).ending = .dropped ↔ Overflows [] cs := by
    refine ⟨fun hdropped => ?_, hs.dropped⟩
    by_contra ho
    exact Ending.noConfusion ((hs.disconnected ho).1.symm.trans hdropped)
  refine ⟨serveConn_ending AtRecv.fresh, hdrops, hs.sent, ?_, ?_, ?_⟩
  · intro hne
    have hsent := hs.sent
    rw [accepted_of_not_overflows (hkept hne)] at hsent
    exact hsent
  · intro hne
    exact (hs.disconnected (hkept hne)).2
  · intro j s hj
    have h := hs.atRecv j s hj
    refine ⟨h.pending, ?_, ?_, h.bound⟩
    · rw [h.pending]
      exact leftover_sep_free _
    · rw [h.pending]
      exact h.length

/-- **One reply for every frame, on every connection**, whatever was received on the
    connections before it. -/
theorem server_framing (conns : List (List Chunk)) :
    run .fresh conns = conns.map (serveConn .fresh) ∧
      ∀ cs ∈ conns, Framed (fun k => wrap32 k) cs (serveConn .fresh cs) :=
  ⟨run_eq_map conns, fun cs _ => serveConn_framed cs⟩

/-! ### The number in the reply is an `int`

`2 ^ 31` newlines on one connection make `i` step past `INT_MAX`: the frame `2147483648` is
answered under a negative number. -/

def blankLines : Chunk :=
  ⟨List.replicate 256 NEWLINE, by rw [List.length_replicate]; decide,
    by rw [List.length_replicate]; decide⟩

/-- `8388609 * 256` newlines. -/
def flood : List Chunk := List.replicate 8388609 blankLines

theorem stream_replicate (n : Nat) :
    stream (List.replicate n blankLines) = List.replicate (n * 256) NEWLINE := by
  rw [stream, List.map_replicate]
  exact List.flatten_replicate_replicate

theorem leftover_newlines (n : Nat) : leftover NEWLINE (List.replicate n NEWLINE) = [] := by
  induction n with
  | zero => rfl
  | succ n ih => rw [List.replicate_succ, leftover, if_pos rfl, ih]

theorem not_overflows_blank (n m : Nat) :
    ¬ Overflows (List.replicate m NEWLINE) (List.replicate n blankLines) := by
  induction n generalizing m with
  | zero => exact id
  | succ n ih =>
    rw [List.replicate_succ, Overflows, leftover_newlines]
    rintro (h | h)
    · have hlen : blankLines.bytes.length = 256 := List.length_replicate
      rw [hlen] at h
      exact absurd h (by decide)
    · refine ih (m + 256) ?_
      rwa [List.replicate_add]

theorem receipt_sixth (n : Int) (f : List UInt8) : (receipt n f)[5]? = (decimal n ++ [58])[0]? := by
  have h : ascii "Frame" ++ decimal n ++ ascii ": " ++ cstr f ++ ascii " received!\n"
      = ascii "Frame" ++ (decimal n ++ [58] ++ ([32] ++ cstr f ++ ascii " received!\n")) := by
    simp [show ascii ": " = [58, 32] from by decide]
  have h5 : (ascii "Frame").length = 5 := by decide
  rw [receipt, h, List.getElem?_append_left, List.getElem?_take_of_lt (by decide),
    List.getElem?_append_right (by rw [h5]), h5]
  · exact List.getElem?_append_left (by simp)
  · simp [h5, FRAME_BUF_SIZ, BUF_SIZ]

theorem flood_not_numbered :
    ¬ Framed (fun k => (k : Int)) flood (serveConn .fresh flood) := by
  intro h
  have hs : ServedFrom [] flood (serveConn .fresh flood) := serveConn_spec AtRecv.fresh
  have hno : ¬ Overflows [] flood := not_overflows_blank 8388609 0
  have hne : (serveConn .fresh flood).ending ≠ .dropped := by
    rw [(hs.disconnected hno).1]
    exact Ending.noConfusion
  have heq := (h.replies hne).symm.trans ((serveConn_framed flood).replies hne)
  have hlen : 2147483648 < (frames NEWLINE (stream flood)).length := by
    rw [length_frames, flood, stream_replicate, List.count_replicate_self]
    decide
  have hk := congrArg (fun l => l[2147483648]?) heq
  simp only [List.getElem?_mapIdx, List.getElem?_eq_getElem hlen, Option.map_some,
    Option.some.injEq] at hk
  have hsix := congrArg (fun l => l[5]?) hk
  have hwrap : wrap32 ((2147483648 : Nat) : Int) = -2147483648 := by decide
  have hminus : ascii "-" = [45] := by decide
  simp only [receipt_sixth, hwrap] at hsix
  norm_num [decimal, hminus] at hsix
  exact absurd hsix (by decide)

end AfLocal
end Labs
