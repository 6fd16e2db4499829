import Labs.TcpEcho.Lines
import Labs.TcpEcho.Program

/-!
# One client and the server

`Link` says for each place of a connected client what is in its two streams, where `log` has the
texts that the server has printed for it, and `held` is the buffer that the server is about to
answer with. The client and the server take turns: a whole buffer is under way in one direction or
the other, or the server holds it, or the client is at its input and nothing is under way.

`client_step` has the moves of the client, `heard_step` and `answer_step` have those of the server.

## Taking turns

Neither side looks at the length of what `recv` returns. This is safe only since both send whole
buffers and one of them is under way at a time; were there two, a `recv` could return parts of both.
`Link` is this discipline: at each place of the client it says what lies in each stream, and never
lets both have something. The place of the server comes in through `held`, the buffer that it has
received and not yet answered.

A text has three stages behind the client's `send` (`Due`): sent, heard by the server, answered.
`log` grows at the second. So what the server has printed is what the client has said, or one text
less, and what the client has printed lags by at most one behind that (`Link.length_printed_le`).

A reset breaks the turns, and it ends the conversation for the client: it leaves. Only clients that
the server has not accepted can be reset, so a client that is served never sees one.
-/

namespace Labs
namespace TcpEcho

open Lib
open EchoServer (BUFFER_SIZE Buffer Client Closing ReplyTo Spoken Text behind next recvfrom say say_spec
  strncat strncat_text recvfrom_whole)

variable {c : Config} {i j : Fin c.clients} {m m' : Net c} {held : Option Buffer}
  {said log : List (List UInt8)} {k k' : Client} {s t : List UInt8} {pc pc' : ClientPlace}
  {b : Buffer}

/-! ## 1. The streams -/

def Stream.idle : Stream := ⟨[], false⟩

theorem recv_idle : Stream.idle.recv = none := rfl

theorem recv_ended : (⟨[], true⟩ : Stream).recv = some ([], ⟨[], true⟩) := rfl

theorem recv_whole (h : s.length = BUFFER_SIZE) :
    (⟨s, false⟩ : Stream).recv = some (s, Stream.idle) := by
  unfold Stream.recv
  rw [if_pos (Or.inl (le_of_eq h.symm)), List.take_of_length_le (le_of_eq h),
    List.drop_eq_nil_of_le (le_of_eq h)]
  rfl

/-- What a client's step leaves as it is. -/
structure Beside (i : Fin c.clients) (m m' : Net c) : Prop where
  queue : m'.queue = m.queue
  listening : m'.listening = m.listening
  others : ∀ j ≠ i, m'.toServer j = m.toServer j ∧ m'.toClient j = m.toClient j

theorem beside_setToServer (m : Net c) (i : Fin c.clients) (s : Stream) :
    Beside i m (m.setToServer i s) :=
  ⟨rfl, rfl, fun _ hj => ⟨Function.update_of_ne hj _ _, rfl⟩⟩

theorem beside_setToClient (m : Net c) (i : Fin c.clients) (s : Stream) :
    Beside i m (m.setToClient i s) :=
  ⟨rfl, rfl, fun _ hj => ⟨rfl, Function.update_of_ne hj _ _⟩⟩

theorem toServer_setToServer (m : Net c) (i : Fin c.clients) (s : Stream) :
    (m.setToServer i s).toServer i = s := Function.update_self ..

theorem toClient_setToClient (m : Net c) (i : Fin c.clients) (s : Stream) :
    (m.setToClient i s).toClient i = s := Function.update_self ..

/-! ## 2. The connection -/

def bang (s : List UInt8) : List UInt8 := s ++ ascii "!"

/-- What the client has said closes no conversation, and it has printed the answers. -/
structure Talks (inp : List UInt8) (waits : Nat) (k : Client) : Prop where
  spoken : Spoken inp waits k
  started : k.said ≠ [] → inp ≠ []
  opened : ∀ s ∈ k.said, ¬ Closing s
  echoed : k.printed = (k.said.take k.printed.length).map bang

/-- Where the text `s` is that the client waits to see answered. -/
inductive Due (i : Fin c.clients) (m : Net c) (held : Option Buffer) (log : List (List UInt8))
    (k : Client) (s : List UInt8) : Prop
  | sent (toServer : m.toServer i = ⟨k.buffer.bytes, false⟩) (toClient : m.toClient i = Stream.idle)
      (none : held = none) (before : log ++ [s] = k.said)
  | heard (b : Buffer) (toServer : m.toServer i = Stream.idle) (toClient : m.toClient i = Stream.idle)
      (some : held = some b) (text : Text b s) (all : log = k.said)
  | answered (r : List UInt8) (toServer : m.toServer i = Stream.idle)
      (toClient : m.toClient i = ⟨r, false⟩) (reply : ReplyTo s r) (none : held = none)
      (all : log = k.said)

structure Resting (i : Fin c.clients) (m : Net c) (held : Option Buffer) (closed : Bool) : Prop where
  toServer : m.toServer i = ⟨[], closed⟩
  toClient : m.toClient i = Stream.idle
  none : held = none

def Link (c : Config) (i : Fin c.clients) (m : Net c) (held : Option Buffer)
    (log : List (List UInt8)) : ClientPlace → Prop
  | .connect => False
  | .enter k => Resting i m held false ∧ log = k.said ∧ Talks (c.input i) 0 k ∧
      Text k.buffer (shown k.said)
  | .recv k => Talks (c.input i) 1 k ∧ ∃ front s, k.said = front ++ [s] ∧ Text k.buffer s ∧
      s.length + 2 ≤ BUFFER_SIZE ∧ Due i m held log k s
  | .returned k => Resting i m held true ∧ log = k.said ∧ Talks (c.input i) 0 k ∧
      texts (c.input i) = k.said ∧ Ends (c.input i)
  | .refused => False
  | .outOfBounds => Resting i m held false ∧ log = [] ∧ c.input i = []

theorem Link.congr (h : Link c i m held log pc) (htoServer : m'.toServer i = m.toServer i)
    (htoClient : m'.toClient i = m.toClient i) : Link c i m' held log pc := by
  have hresting : ∀ {closed}, Resting i m held closed → Resting i m' held closed :=
    fun h => ⟨htoServer.trans h.toServer, htoClient.trans h.toClient, h.none⟩
  cases pc with
  | connect | refused => exact h
  | enter k => exact ⟨hresting h.1, h.2⟩
  | returned k => exact ⟨hresting h.1, h.2⟩
  | outOfBounds => exact ⟨hresting h.1, h.2⟩
  | recv k =>
    obtain ⟨htalks, front, s, hsaid, htext, hlen, hdue⟩ := h
    refine ⟨htalks, front, s, hsaid, htext, hlen, ?_⟩
    cases hdue with
    | sent h₁ h₂ h₃ h₄ => exact .sent (htoServer.trans h₁) (htoClient.trans h₂) h₃ h₄
    | heard b h₁ h₂ h₃ h₄ h₅ => exact .heard b (htoServer.trans h₁) (htoClient.trans h₂) h₃ h₄ h₅
    | answered r h₁ h₂ h₃ h₄ h₅ => exact .answered r (htoServer.trans h₁) (htoClient.trans h₂) h₃ h₄ h₅

theorem Link.beside (h : Link c j m held log pc) (hm : Beside i m m') (hj : j ≠ i) :
    Link c j m' held log pc :=
  h.congr (hm.others j hj).1 (hm.others j hj).2

/-- A client prints an answer for each text that the server has printed, and no more. -/
theorem Link.length_printed_le (h : Link c i m held log (.enter k) ∨ Link c i m held log (.recv k)) :
    k.printed.length ≤ log.length := by
  rcases h with ⟨-, hlog, htalks, -⟩ | ⟨htalks, front, s, hsaid, -, -, hdue⟩
  · have := htalks.spoken.length_said
    rw [hlog]
    omega
  · have hlen := htalks.spoken.length_said
    cases hdue with
    | sent _ _ _ before =>
      rw [← before, List.length_append, List.length_singleton] at hlen
      omega
    | heard _ _ _ _ _ all =>
      rw [all]
      omega
    | answered _ _ _ _ _ all =>
      rw [all]
      omega

/-! ## 3. The steps of the client -/

theorem Talks.say (h : Talks (c.input i) 0 k) (hne : c.input i ≠ []) (b : Buffer) (t : List UInt8)
    (hopen : ¬ Closing (next t k.input)) :
    Talks (c.input i) 1 ⟨b, behind 1 k.input, k.said ++ [next t k.input], k.printed⟩ := by
  have hlen := h.spoken.length_said
  refine ⟨h.spoken.say b t, fun _ => hne, fun s hs => ?_, ?_⟩
  · rcases List.mem_append.mp hs with hs | hs
    · exact h.opened s hs
    · rw [List.mem_singleton.mp hs]
      exact hopen
  · show k.printed = ((k.said ++ [next t k.input]).take k.printed.length).map bang
    rw [List.take_append_of_le_length (by omega)]
    exact h.echoed

theorem Talks.print {front : List (List UInt8)} (h : Talks (c.input i) 1 k)
    (hsaid : k.said = front ++ [s]) (b : Buffer) :
    Talks (c.input i) 0 ⟨b, k.input, k.said, k.printed ++ [bang s]⟩ := by
  have hlen := h.spoken.length_said
  rw [hsaid, List.length_append, List.length_singleton] at hlen
  have hfront : k.printed.length = front.length := by omega
  refine ⟨h.spoken.print b (bang s), h.started, h.opened, ?_⟩
  have hechoed := h.echoed
  rw [hsaid, hfront, List.take_left] at hechoed
  show k.printed ++ [bang s] = (k.said.take (k.printed ++ [bang s]).length).map bang
  rw [hechoed, hsaid]
  simp [← hfront]

/-- The next text of a client that is at its input. -/
theorem Link.say (hinput : NUL ∉ c.input i) (h : Link c i m held log (.enter k))
    (hne : c.input i ≠ []) :
    (shown k.said ≠ [] ∨ k.input ≠ []) ∧
      ∃ b, say k = some (⟨b, behind 1 k.input, k.said ++ [next (shown k.said) k.input], k.printed⟩,
          decide (Closing (next (shown k.said) k.input))) ∧
        Text b (next (shown k.said) k.input) ∧
        (next (shown k.said) k.input).length + 2 ≤ BUFFER_SIZE := by
  obtain ⟨-, -, htalks, htext⟩ := h
  have hfirst : shown k.said ≠ [] ∨ k.input ≠ [] := by
    by_cases hsaid : k.said = []
    · refine Or.inr ?_
      rw [htalks.spoken.input_eq, hsaid]
      exact hne
    · exact Or.inl (shown_ne_nil hsaid)
  refine ⟨hfirst, say_spec htext hfirst ?_⟩
  rw [htalks.spoken.input_eq]
  exact EchoServer.behind_nul_free hinput _

/-- Without input there is nothing in the buffer whose last byte could be cut off. -/
theorem Link.say_nothing (h : Link c i m held log (.enter k)) (hnil : c.input i = []) :
    EchoServer.say k = none ∧ k.said = [] := by
  obtain ⟨-, -, htalks, htext⟩ := h
  have hsaid : k.said = [] := by
    by_contra hne
    exact htalks.started hne hnil
  have hend : k.input = [] := by
    rw [htalks.spoken.input_eq, hsaid, hnil]
    rfl
  rw [hsaid] at htext
  obtain ⟨-, rest, hbytes⟩ := htext
  have hfind : memchr k.buffer.bytes NUL = some 0 := by
    rw [hbytes]
    exact EchoServer.memchr_nul (List.not_mem_nil)
  have hread : EchoServer.fgetsBuffer k = some (k.buffer, k.input) := by
    simp [EchoServer.fgetsBuffer, fgets, hend]
  refine ⟨?_, hsaid⟩
  rw [EchoServer.say, hread]
  simp [hfind]

/-- **A move of a client.** It keeps the turns, unless its connection is reset: then it leaves. -/
theorem client_step {e : Event} {op : SemOp Empty} (hinput : NUL ∉ c.input i)
    (h : Link c i m held log pc) (hstep : client i pc m e = some (pc', m', op)) :
    (Link c i m' held log pc' ∨ m.IsReset i ∧
      ∃ k w, pc' = .returned k ∧ Talks (c.input i) w k ∧ k.printed.length ≤ log.length) ∧
      Beside i m m' := by
  cases pc with
  | connect | refused => exact h.elim
  | returned k => cases e <;> cases hstep
  | outOfBounds => cases e <;> cases hstep
  | enter k =>
    by_cases hnil : c.input i = []
    · obtain ⟨hsay, hsaid⟩ := h.say_nothing hnil
      obtain ⟨hresting, hlog, -, -⟩ := h
      have hout : Link c i m held log ClientPlace.outOfBounds := ⟨hresting, hlog.trans hsaid, hnil⟩
      cases e with
      | ok =>
        rw [client, hsay] at hstep
        cases hstep
        exact ⟨Or.inl hout, rfl, rfl, fun _ _ => ⟨rfl, rfl⟩⟩
      | fails =>
        rw [client, hsay] at hstep
        split at hstep <;> cases hstep
        exact ⟨Or.inl hout, rfl, rfl, fun _ _ => ⟨rfl, rfl⟩⟩
    · obtain ⟨hfirst, b, hsay, htext, hlen⟩ := h.say hinput hnil
      have hprinted := @Link.length_printed_le _ i m held log k (Or.inl h)
      obtain ⟨hresting, hlog, htalks, -⟩ := h
      cases e with
      | ok =>
        by_cases hclosing : Closing (next (shown k.said) k.input)
        · rw [client, hsay, decide_eq_true hclosing] at hstep
          cases hstep
          obtain ⟨hall, hends⟩ := said_eq_texts htalks.spoken hfirst htalks.opened hclosing
          refine ⟨Or.inl ⟨⟨?_, hresting.toClient, hresting.none⟩, hlog, htalks, hall, hends⟩,
            beside_setToServer m i _⟩
          rw [Net.hangUp, toServer_setToServer, hresting.toServer]
        · rw [client, hsay, decide_eq_false hclosing] at hstep
          cases hstep
          refine ⟨Or.inl ⟨htalks.say hnil b _ hclosing, k.said, _, rfl, htext, hlen, ?_⟩,
            beside_setToServer m i _⟩
          refine .sent ?_ hresting.toClient hresting.none (by rw [hlog])
          rw [toServer_setToServer, hresting.toServer]
          rfl
      | fails =>
        rw [client, hsay] at hstep
        split at hstep <;> cases hstep
        rename_i hreset
        exact ⟨Or.inr ⟨hreset, k, 0, rfl, htalks, hprinted⟩, beside_setToServer m i _⟩
  | recv k =>
    have hprinted := @Link.length_printed_le _ i m held log k (Or.inr h)
    obtain ⟨htalks, front, s, hsaid, htext, hlen, hdue⟩ := h
    cases e with
    | ok =>
      obtain ⟨r, hr, heq⟩ := Option.map_eq_some_iff.mp hstep
      cases heq
      cases hdue with
      | sent _ toClient _ _ =>
        rw [toClient, recv_idle] at hr
        cases hr
      | heard _ _ toClient _ _ _ =>
        rw [toClient, recv_idle] at hr
        cases hr
      | answered reply toServer toClient hreply none all =>
        rw [toClient, recv_whole hreply.1] at hr
        cases hr
        have hbuffer := @EchoServer.ReplyTo.text k.buffer _ _ hreply
        refine ⟨Or.inl ?_, beside_setToClient m i _⟩
        rw [told, if_neg (not_not.mpr hbuffer.mem), hbuffer.cstr_eq]
        refine ⟨⟨toServer, toClient_setToClient m i _, none⟩, all, htalks.print hsaid _, ?_⟩
        show Text _ (shown k.said)
        rw [hsaid, shown_append]
        exact hbuffer
    | fails =>
      rw [client] at hstep
      split at hstep <;> cases hstep
      rename_i hreset
      exact ⟨Or.inr ⟨hreset, k, 1, rfl, htalks, hprinted⟩, beside_setToServer m i _⟩

/-! ## 4. The steps of the server -/

/-- **The server receives** a whole text, or the end of the conversation. -/
theorem heard_step {S : Server c} {r : List UInt8 × Stream} (h : Link c i m none said pc)
    (hr : (m.toServer i).recv = some r) :
    (heard i S r.1 = .ask S ∧ r.2 = m.toServer i ∧ Link c i (m.setToServer i r.2) none said pc ∧
        ∃ k, pc = .returned k) ∨
      ∃ b s, heard i S r.1 = .send i { S with buffer := b, printed := S.printed ++ [(i, s)] } ∧
        r.2 = Stream.idle ∧ (m.toServer i).bytes ≠ [] ∧
        Link c i (m.setToServer i r.2) (some b) (said ++ [s]) pc := by
  cases pc with
  | connect | refused => exact h.elim
  | enter k =>
    have hidle : m.toServer i = Stream.idle := h.1.toServer
    rw [hidle, recv_idle] at hr
    cases hr
  | outOfBounds =>
    have hidle : m.toServer i = Stream.idle := h.1.toServer
    rw [hidle, recv_idle] at hr
    cases hr
  | returned k =>
    obtain ⟨hresting, hrest⟩ := h
    rw [hresting.toServer, recv_ended] at hr
    cases hr
    refine Or.inl ⟨rfl, hresting.toServer.symm, ⟨⟨toServer_setToServer m i _, hresting.toClient,
      hresting.none⟩, hrest⟩, k, rfl⟩
  | recv k =>
    obtain ⟨htalks, front, s, hsaid, htext, hlen, hdue⟩ := h
    cases hdue with
    | heard _ _ _ some _ _ => cases some
    | answered _ toServer _ _ _ _ =>
      rw [toServer, recv_idle] at hr
      cases hr
    | sent toServer toClient _ before =>
      rw [toServer, recv_whole k.buffer.size_eq] at hr
      cases hr
      have hgot := EchoServer.text_whole htext S.buffer
      have hsome : k.buffer.bytes ≠ [] := by
        intro hnil
        have := htext.mem
        rw [hnil] at this
        cases this
      refine Or.inr ⟨recvfrom S.buffer k.buffer.bytes, s, ?_, rfl, by rw [toServer]; exact hsome, htalks,
        front, s, hsaid, htext, hlen, ?_⟩
      · rw [heard, if_neg hsome, if_neg (not_not.mpr hgot.mem), hgot.cstr_eq]
      · exact .heard _ (toServer_setToServer m i _) toClient rfl hgot before

/-- **The server answers**, and has room for the `!`. -/
theorem answer_step (h : Link c i m (some b) said pc) :
    ∃ b', strncat b = some b' ∧
      Link c i (m.setToClient i ((m.toClient i).send b'.bytes)) none said pc ∧ ∃ k, pc = .recv k := by
  cases pc with
  | connect | refused => exact h.elim
  | enter k => cases h.1.none
  | outOfBounds => cases h.1.none
  | returned k => cases h.1.none
  | recv k =>
    obtain ⟨htalks, front, s, hsaid, htext, hlen, hdue⟩ := h
    cases hdue with
    | sent _ _ none _ => cases none
    | answered _ _ _ _ none _ => cases none
    | heard _ toServer toClient some text all =>
      cases some
      obtain ⟨b', hb', hreply⟩ := strncat_text text hlen
      refine ⟨b', hb', ⟨htalks, front, s, hsaid, htext, hlen, ?_⟩, k, rfl⟩
      refine .answered b'.bytes toServer ?_ hreply rfl all
      rw [toClient_setToClient, toClient]
      rfl

end TcpEcho
end Labs
