import Labs.EchoServer.Answers

/-!
# Whose answer it is

`ClientInv` says for each place of a client what is in flight for it: at most one datagram, which
is its last text, or the answer to that. It depends on nothing that another party changes, so a step
keeps it if it keeps it for the party that moves (`clientInv_congr`).

## What makes the invariant local

The buffer of the server is shared by all clients, and never cleared, so what a client gets back may
have the end of another one's text in it. Whose text an answer *begins* with is another matter, and
that can be said for each client by itself: a datagram travels with the address of its client, a
client sends the next one only when it has its answer, and the server answers before it receives
again. So at most one datagram is in flight for a client, in one of two directions (`ClientInv`).

The network may lose, and the invariant is closed under that: a client does not notice what is no
longer in flight for it (`clientInv_fewer`). It neither duplicates nor makes up datagrams; the step
that delivers takes the datagram away.

The server's own invariant has a case for each way it can end. It leaves only for a text that closes
the conversation, and writes outside its buffer only when there is more than one client. With a
single client the buffer has what this client has sent, and it stays inside (`serve_outcome`).
-/

namespace Labs
namespace EchoServer

open Lib

variable {c : Config} {b b' : Buffer} {s t r : List UInt8} {k k' : Client} {m m' : Net c}
  {i j : Fin c.clients} {st st' : State c}

/-! ## 1. The invariant -/

/-- What a client has said and printed, `waits` telling whether an answer is due. -/
structure Spoken (input : List UInt8) (waits : Nat) (k : Client) : Prop where
  input_eq : k.input = behind k.said.length input
  said_of_lines : lines k.said.length input <+: k.said
  length_said : k.said.length = k.printed.length + waits

/-- Each printed text is the text that was said, and a `!` if the server has answered it. -/
def Echoed (m : Net c) (k : Client) : Prop :=
  ∀ (n : Nat) (u : List UInt8), k.printed[n]? = some u →
    ∃ s, k.said[n]? = some s ∧ (u = s ++ ascii "!" ∨ m.serving = false ∧ u = s)

def ClientInv (c : Config) (m : Net c) (i : Fin c.clients) : ClientPlace → Prop
  | .greet => m.requests i = none ∧ m.replies i = none
  | .greeted => (∀ d ∈ m.requests i, d = ascii "ping" ∧ m.replies i = none) ∧
      ∀ r ∈ m.replies i, ∃ s, ReplyTo s r
  | .enter k => m.requests i = none ∧ m.replies i = none ∧ Spoken (c.input i) 0 k ∧ Echoed m k ∧
      ∃ t, Text k.buffer t ∧ t ≠ []
  | .recv k => (∀ d ∈ m.requests i, d = k.buffer.bytes ∧ m.replies i = none) ∧
      Spoken (c.input i) 1 k ∧ Echoed m k ∧
      ∃ s, k.said.getLast? = some s ∧ Text k.buffer s ∧ s.length + 2 ≤ BUFFER_SIZE ∧ ¬ Closing s ∧
        ∀ r ∈ m.replies i, ReplyTo s r
  | .returned k => (∀ d ∈ m.requests i, d = k.buffer.bytes) ∧ m.replies i = none ∧
      Spoken (c.input i) 1 k ∧ Echoed m k ∧
      ∃ s, k.said.getLast? = some s ∧ Text k.buffer s ∧ Closing s
  | .outOfBounds => False

/-- Nobody has greeted the server yet. -/
def Fresh (st : State c) : Prop :=
  ∃ i, st.pc (.client i) = ClientPlace.greet ∨
    st.pc (.client i) = ClientPlace.greeted ∧ st.mem.requests i ≠ none

def ServerInv (st : State c) : ServerPlace → Prop
  | .recvfrom b => st.mem.serving = true ∧ (c.clients ≤ 1 → Fresh st → b = .zero _)
  | .returned => st.mem.serving = false ∧
      ∃ i k s, st.pc (.client i) = ClientPlace.returned k ∧ k.said.getLast? = some s ∧ Closing s
  | .outOfBounds => st.mem.serving = true ∧ 1 < c.clients

structure Inv (st : State c) : Prop where
  client : ∀ i, ClientInv c st.mem i (st.pc (.client i))
  server : ServerInv st (st.pc .server)

theorem inv_init : Inv (init c) := by
  constructor
  · intro i
    exact ⟨rfl, rfl⟩
  · exact ⟨rfl, fun _ _ => rfl⟩

/-- A client does not notice what is not in flight for it, and not yet what is lost. -/
theorem clientInv_fewer {pc : ClientPlace} (h : ClientInv c m i pc)
    (hrequests : ∀ d ∈ m'.requests i, d ∈ m.requests i)
    (hreplies : ∀ r ∈ m'.replies i, r ∈ m.replies i)
    (hserving : m.serving = false → m'.serving = false) : ClientInv c m' i pc := by
  have hechoed : ∀ k, Echoed m k → Echoed m' k := by
    intro k he n u hu
    obtain ⟨s, hs, heq⟩ := he n u hu
    exact ⟨s, hs, heq.imp_right fun h => ⟨hserving h.1, h.2⟩⟩
  have hnone : ∀ {o o' : Option (List UInt8)}, (∀ d ∈ o', d ∈ o) → o = none → o' = none := by
    intro o o' hsub ho
    by_contra hsome
    obtain ⟨d, hd⟩ := Option.ne_none_iff_exists'.mp hsome
    have := hsub d hd
    rw [ho] at this
    cases this
  cases pc with
  | greet => exact ⟨hnone hrequests h.1, hnone hreplies h.2⟩
  | greeted =>
    refine ⟨fun d hd => ?_, fun r hr => h.2 r (hreplies r hr)⟩
    obtain ⟨h₁, h₂⟩ := h.1 d (hrequests d hd)
    exact ⟨h₁, hnone hreplies h₂⟩
  | enter k =>
    obtain ⟨h₁, h₂, h₃, h₄, h₅⟩ := h
    exact ⟨hnone hrequests h₁, hnone hreplies h₂, h₃, hechoed k h₄, h₅⟩
  | recv k =>
    obtain ⟨h₁, h₂, h₃, s, h₄, h₅, h₆, h₇, h₈⟩ := h
    refine ⟨fun d hd => ?_, h₂, hechoed k h₃, s, h₄, h₅, h₆, h₇, fun r hr => h₈ r (hreplies r hr)⟩
    obtain ⟨hd₁, hd₂⟩ := h₁ d (hrequests d hd)
    exact ⟨hd₁, hnone hreplies hd₂⟩
  | returned k =>
    obtain ⟨h₁, h₂, h₃, h₄, h₅⟩ := h
    exact ⟨fun d hd => h₁ d (hrequests d hd), hnone hreplies h₂, h₃, hechoed k h₄, h₅⟩
  | outOfBounds => exact h

theorem clientInv_congr {pc : ClientPlace} (h : ClientInv c m i pc)
    (hrequests : m'.requests i = m.requests i) (hreplies : m'.replies i = m.replies i)
    (hserving : m.serving = false → m'.serving = false) : ClientInv c m' i pc :=
  clientInv_fewer h (by simp [hrequests]) (by simp [hreplies]) hserving

/-! ## 2. The steps of a client -/

theorem echoed_said (h : Echoed m k) (s : List UInt8) (b : Buffer) (inp : List UInt8) :
    Echoed m ⟨b, inp, k.said ++ [s], k.printed⟩ := by
  intro n u hu
  obtain ⟨s', hs', heq⟩ := h n u hu
  obtain ⟨hlt, -⟩ := List.getElem?_eq_some_iff.mp hs'
  exact ⟨s', by rw [List.getElem?_append_left hlt]; exact hs', heq⟩

theorem Spoken.say {input : List UInt8} (h : Spoken input 0 k) (b : Buffer) (t : List UInt8) :
    Spoken input 1 ⟨b, behind 1 k.input, k.said ++ [next t k.input], k.printed⟩ := by
  obtain ⟨hinput, hlines, hlen⟩ := h
  refine ⟨?_, ?_, ?_⟩
  · rw [List.length_append, List.length_singleton, behind_succ k.said.length, ← hinput]
  · rw [List.length_append, List.length_singleton, lines_succ, ← hinput]
    cases hread : fgets BUFFER_SIZE k.input with
    | none =>
      -- the input has ended
      have hend : EchoServer.lines 1 k.input = [] := by simp [EchoServer.lines, hread]
      rw [hend, List.append_nil]
      exact hlines.trans (List.prefix_append _ _)
    | some p =>
      have hline : EchoServer.lines 1 k.input = [next t k.input] := by
        simp [EchoServer.lines, next, hread]
      have hall := @length_lines k.said.length input (by rw [← hinput, hread]; simp)
      rw [hline, hlines.eq_of_length hall]
  · simpa using hlen

theorem Spoken.print {input : List UInt8} (h : Spoken input 1 k) (b : Buffer) (u : List UInt8) :
    Spoken input 0 ⟨b, k.input, k.said, k.printed ++ [u]⟩ :=
  ⟨h.input_eq, h.said_of_lines, by simpa using h.length_said⟩

/-- The printed text belongs to the text that was said last. -/
theorem echoed_printed {input u : List UInt8} (h : Echoed m k) (hspoken : Spoken input 1 k)
    (hlast : k.said.getLast? = some s) (hu : u = s ++ ascii "!" ∨ m.serving = false ∧ u = s)
    (b : Buffer) (inp : List UInt8) : Echoed m ⟨b, inp, k.said, k.printed ++ [u]⟩ := by
  intro n v hv
  by_cases hn : n < k.printed.length
  · rw [List.getElem?_append_left hn] at hv
    exact h n v hv
  · have hend : n = k.printed.length := by
      have := (List.getElem?_eq_some_iff.mp hv).1
      rw [List.length_append, List.length_singleton] at this
      omega
    subst hend
    obtain rfl : u = v := by simpa using hv
    refine ⟨s, ?_, hu⟩
    rw [List.getLast?_eq_getElem?, hspoken.length_said] at hlast
    exact hlast

theorem print_inv {u : List UInt8} (hrequest : m.requests i = none) (hreply : m.replies i = none)
    (hspoken : Spoken (c.input i) 1 k) (hechoed : Echoed m k) (hlast : k.said.getLast? = some s)
    (htext : Text b u) (hne : u ≠ []) (hu : u = s ++ ascii "!" ∨ m.serving = false ∧ u = s) :
    ClientInv c m i (print k b) := by
  rw [print, if_neg (not_not.mpr htext.mem), htext.cstr_eq]
  exact ⟨hrequest, hreply, hspoken.print b u, echoed_printed hechoed hspoken hlast hu b _, u, htext,
    hne⟩

theorem client_step {pc pc' : ClientPlace} {e : Event c} {op : SemOp Empty}
    (hinput : NUL ∉ c.input i) (h : ClientInv c m i pc)
    (hstep : client i pc m e = some (pc', m', op)) :
    ClientInv c m' i pc' ∧ m'.serving = m.serving ∧
      ∀ j ≠ i, m'.requests j = m.requests j ∧ m'.replies j = m.replies j := by
  cases pc with
  | greet =>
    cases e <;> cases hstep
    refine ⟨⟨?_, ?_⟩, rfl, fun j hj => ⟨Function.update_of_ne hj _ _, rfl⟩⟩
    · intro d hd
      have hd' : some (ascii "ping") = some d := by simpa using hd
      exact ⟨(Option.some.inj hd').symm, h.2⟩
    · intro r hr
      have hr' : m.replies i = some r := hr
      rw [h.2] at hr'
      cases hr'
  | greeted =>
    cases e <;> try cases hstep
    obtain ⟨r, hr, heq⟩ := Option.map_eq_some_iff.mp hstep
    cases heq
    obtain ⟨s, hs⟩ := h.2 r hr
    have hrequest : m.requests i = none := by
      by_contra hsome
      obtain ⟨d, hd⟩ := Option.ne_none_iff_exists'.mp hsome
      rw [(h.1 d hd).2] at hr
      cases hr
    refine ⟨⟨hrequest, by simp, ⟨rfl, List.prefix_rfl, rfl⟩, ?_, _, hs.text, by simp [ascii]⟩, rfl,
      fun j hj => ⟨rfl, Function.update_of_ne hj _ _⟩⟩
    intro n u hu
    simp at hu
  | enter k =>
    cases e <;> try cases hstep
    obtain ⟨hrequest, hreply, hspoken, hechoed, t, ht, hne⟩ := h
    have hfree : NUL ∉ k.input := by
      rw [hspoken.input_eq]
      exact behind_nul_free hinput _
    obtain ⟨b, hsay, hb, hlen⟩ := say_spec ht (Or.inl hne) hfree
    rw [client, hsay] at hstep
    cases hstep
    have hspoken' := hspoken.say b t
    have hechoed' : Echoed m ⟨b, behind 1 k.input, k.said ++ [next t k.input], k.printed⟩ :=
      echoed_said hechoed _ _ _
    have hlast : (k.said ++ [next t k.input]).getLast? = some (next t k.input) := by simp
    refine ⟨?_, rfl, fun j hj => ⟨Function.update_of_ne hj _ _, rfl⟩⟩
    by_cases hclosing : Closing (next t k.input)
    · rw [if_pos (by simpa using hclosing)]
      refine ⟨?_, hreply, hspoken', hechoed', _, hlast, hb, hclosing⟩
      intro d hd
      exact (Option.some.inj (by simpa using hd) : b.bytes = d).symm
    · rw [if_neg (by simpa using hclosing)]
      refine ⟨?_, hspoken', hechoed', _, hlast, hb, hlen, hclosing, ?_⟩
      · intro d hd
        exact ⟨(Option.some.inj (by simpa using hd) : b.bytes = d).symm, hreply⟩
      · intro r hr
        have hr' : m.replies i = some r := hr
        rw [hreply] at hr'
        cases hr'
  | recv k =>
    obtain ⟨hrequests, hspoken, hechoed, s, hlast, htext, hlen, hclosing, hreplies⟩ := h
    cases e with
    | ok =>
      obtain ⟨r, hr, heq⟩ := Option.map_eq_some_iff.mp hstep
      cases heq
      have hrequest : m.requests i = none := by
        by_contra hsome
        obtain ⟨d, hd⟩ := Option.ne_none_iff_exists'.mp hsome
        rw [(hrequests d hd).2] at hr
        cases hr
      refine ⟨?_, rfl, fun j hj => ⟨rfl, Function.update_of_ne hj _ _⟩⟩
      exact print_inv hrequest (by simp) hspoken hechoed hlast (hreplies r hr).text
        (by simp [ascii]) (Or.inl rfl)
    | refused =>
      rw [client] at hstep
      split at hstep
      · cases hstep
      · rename_i hserving
        obtain ⟨d, hd, heq⟩ := Option.map_eq_some_iff.mp hstep
        cases heq
        refine ⟨?_, rfl, fun j hj => ⟨Function.update_of_ne hj _ _, rfl⟩⟩
        refine print_inv (by simp) (hrequests d hd).2 hspoken hechoed hlast htext ?_
          (Or.inr ⟨by simpa using hserving, rfl⟩)
        intro hnil
        exact hclosing (hnil ▸ closing_nil)
    | receive | loseRequest | loseReply => cases hstep
  | returned k => cases e <;> cases hstep
  | outOfBounds => exact h.elim

/-! ## 3. The steps of the server -/

theorem ping_not_closing {s : List UInt8} (h : ascii "ping" <+: s) : ¬ Closing s := by
  obtain ⟨u, rfl⟩ := h
  simp [Closing, ascii, List.cons_prefix_cons]

/-- What the server does with a datagram, if its text ends in the buffer. -/
theorem serve_text {request : List UInt8} (hne : request ≠ []) (ht : Text (recvfrom b request) t) :
    (Closing t → serve b i request m = (.returned,
        { m with requests := Function.update m.requests i none, serving := false })) ∧
      (¬ Closing t → strncat (recvfrom b request) = none → serve b i request m =
        (.outOfBounds, { m with requests := Function.update m.requests i none })) ∧
      ∀ b', ¬ Closing t → strncat (recvfrom b request) = some b' → serve b i request m =
        (.recvfrom b', { m with
          requests := Function.update m.requests i none
          replies := Function.update m.replies i (some b'.bytes) }) := by
  have hcloses := serverCloses_iff ht
  refine ⟨fun hclosing => ?_, fun hclosing hnone => ?_, fun b' hclosing hb' => ?_⟩
  · simp [serve, hne, ht.mem, hcloses.mpr hclosing]
  · simp [serve, hne, ht.mem, mt hcloses.mp hclosing, hnone]
  · simp [serve, hne, ht.mem, mt hcloses.mp hclosing, hb']

/-- The text of a request, and that the client waits for the answer. -/
theorem request_text {pc : ClientPlace} {d : List UInt8} (h : ClientInv c m i pc)
    (hd : m.requests i = some d) :
    (pc = .greeted ∧ d = ascii "ping") ∨
      ∃ k s, d = k.buffer.bytes ∧ k.said.getLast? = some s ∧ Text k.buffer s ∧
        (pc = .recv k ∧ s.length + 2 ≤ BUFFER_SIZE ∧ ¬ Closing s ∨ pc = .returned k ∧ Closing s) := by
  cases pc with
  | greet => cases h.1.symm.trans hd
  | greeted => exact Or.inl ⟨rfl, (h.1 d hd).1⟩
  | enter k => cases h.1.symm.trans hd
  | recv k =>
    obtain ⟨hrequests, -, -, s, hlast, htext, hlen, hclosing, -⟩ := h
    exact Or.inr ⟨k, s, (hrequests d hd).1, hlast, htext, Or.inl ⟨rfl, hlen, hclosing⟩⟩
  | returned k =>
    obtain ⟨hrequests, -, -, -, s, hlast, htext, hclosing⟩ := h
    exact Or.inr ⟨k, s, hrequests d hd, hlast, htext, Or.inr ⟨rfl, hclosing⟩⟩
  | outOfBounds => exact h.elim

theorem text_whole (h : Text b s) (b' : Buffer) : Text (recvfrom b' b.bytes) s := by
  obtain ⟨hs, rest, hb⟩ := h
  exact ⟨hs, rest, (recvfrom_whole b.size_eq).trans hb⟩

/-- The client that gets an answer. -/
theorem clientInv_answered {pc : ClientPlace} {d : List UInt8} (h : ClientInv c m i pc)
    (hd : m.requests i = some d) (ht : Text (recvfrom b d) t) (hclosing : ¬ Closing t)
    (hb' : strncat (recvfrom b d) = some b') (hrequest : m'.requests i = none)
    (hreply : m'.replies i = some b'.bytes) (hserving : m'.serving = m.serving) :
    ClientInv c m' i pc := by
  have hnone : ∀ d ∈ m'.requests i, False := by
    intro d hd
    rw [hrequest] at hd
    cases hd
  have hreplyTo := replyTo_of_strncat ht hb'
  rcases request_text h hd with ⟨rfl, -⟩ | ⟨k, s, rfl, hlast, htext, ⟨rfl, hlen, hopen⟩ | ⟨rfl, hclose⟩⟩
  · refine ⟨fun d hd => (hnone d hd).elim, ?_⟩
    intro r hr
    obtain rfl : b'.bytes = r := Option.some.inj (hreply.symm.trans hr)
    exact ⟨t, hreplyTo⟩
  · obtain ⟨-, hspoken, hechoed, s', hlast', htext', -⟩ := h
    obtain rfl : s' = s := Option.some.inj (hlast'.symm.trans hlast)
    obtain rfl : t = s' := by rw [← ht.cstr_eq, (text_whole htext b).cstr_eq]
    refine ⟨fun d hd => (hnone d hd).elim, hspoken, ?_, t, hlast, htext, hlen, hopen, ?_⟩
    · intro n u hu
      obtain ⟨s, hs, heq⟩ := hechoed n u hu
      exact ⟨s, hs, heq.imp_right fun h => ⟨hserving.trans h.1, h.2⟩⟩
    · intro r hr
      obtain rfl : b'.bytes = r := Option.some.inj (hreply.symm.trans hr)
      exact hreplyTo
  · exact absurd ((text_whole htext b).cstr_eq.symm.trans ht.cstr_eq ▸ hclose) hclosing

theorem text_ping (h : NUL ∈ (recvfrom b (ascii "ping")).bytes) :
    ∃ t, Text (recvfrom b (ascii "ping")) t ∧ ascii "ping" <+: t := by
  refine ⟨_, text_of_mem h, ?_⟩
  obtain ⟨rest, hrest⟩ : ∃ rest, (recvfrom b (ascii "ping")).bytes = ascii "ping" ++ rest :=
    ⟨_, rfl⟩
  rw [hrest]
  exact ⟨cstr rest, by simp [cstr, ascii, NUL]⟩

theorem text_first_ping : Text (recvfrom (.zero _) (ascii "ping")) (ascii "ping") :=
  ⟨by decide, List.replicate 1019 0, rfl⟩

/-- **A datagram is the end of the server's memory, or of the server, or it is answered.** -/
theorem serve_outcome {d : List UInt8} (h : Inv st) (hpc : st.pc .server = ServerPlace.recvfrom b)
    (hd : st.mem.requests i = some d) :
    (1 < c.clients ∧ serve b i d st.mem =
        (.outOfBounds, { st.mem with requests := Function.update st.mem.requests i none })) ∨
      (∃ k s, st.pc (.client i) = ClientPlace.returned k ∧ k.said.getLast? = some s ∧ Closing s ∧
        serve b i d st.mem = (.returned,
          { st.mem with requests := Function.update st.mem.requests i none, serving := false })) ∨
      ∃ t b', Text (recvfrom b d) t ∧ ¬ Closing t ∧ strncat (recvfrom b d) = some b' ∧
        serve b i d st.mem = (.recvfrom b', { st.mem with
          requests := Function.update st.mem.requests i none
          replies := Function.update st.mem.replies i (some b'.bytes) }) := by
  rcases request_text (h.client i) hd with ⟨hplace, rfl⟩ | ⟨k, s, rfl, hlast, htext, hplace⟩
  · -- the first client finds the buffer as it was
    have hfirst : c.clients ≤ 1 → b = .zero _ := by
      have hserver := h.server
      rw [hpc] at hserver
      exact fun hone => hserver.2 hone ⟨i, Or.inr ⟨hplace, by rw [hd]; simp⟩⟩
    have hne : ascii "ping" ≠ [] := by simp [ascii]
    by_cases hmem : NUL ∈ (recvfrom b (ascii "ping")).bytes
    · obtain ⟨t, ht, hprefix⟩ := text_ping hmem
      have hclosing := ping_not_closing hprefix
      obtain ⟨-, hnone, hsome⟩ := @serve_text c b t st.mem i (ascii "ping") hne ht
      cases hb' : strncat (recvfrom b (ascii "ping")) with
      | none =>
        refine Or.inl ⟨?_, hnone hclosing hb'⟩
        by_contra hone
        rw [hfirst (Nat.not_lt.mp hone)] at hb'
        obtain ⟨b', hb'', -⟩ := strncat_text text_first_ping (by decide)
        cases hb'.symm.trans hb''
      | some b' => exact Or.inr (Or.inr ⟨t, b', ht, hclosing, rfl, hsome b' hclosing hb'⟩)
    · refine Or.inl ⟨?_, by simp [serve, hne, hmem]⟩
      by_contra hone
      rw [hfirst (Nat.not_lt.mp hone)] at hmem
      exact hmem text_first_ping.mem
  · have ht := text_whole htext b
    have hne : k.buffer.bytes ≠ [] := by
      intro hnil
      have := htext.mem
      rw [hnil] at this
      cases this
    obtain ⟨hreturns, -, hsome⟩ := @serve_text c b s st.mem i k.buffer.bytes hne ht
    rcases hplace with ⟨-, hlen, hclosing⟩ | ⟨hplace, hclosing⟩
    · obtain ⟨b', hb', -⟩ := strncat_text ht hlen
      exact Or.inr (Or.inr ⟨s, b', ht, hclosing, hb', hsome b' hclosing hb'⟩)
    · exact Or.inr (Or.inl ⟨k, s, hplace, hlast, hclosing, hreturns hclosing⟩)

theorem server_step {e : Event c} {pc : ServerPlace} {op : SemOp Empty} {sem : Empty → Int}
    (h : Inv st) (hstep : server (st.pc .server) st.mem e = some (pc, m, op)) :
    Inv (⟨Function.update st.pc .server pc, m, sem⟩ : State c) := by
  have hclient : ∀ j, Function.update st.pc .server pc (.client j) = st.pc (.client j) :=
    fun j => Function.update_of_ne (by simp) _ _
  cases hpc : st.pc .server with
  | returned =>
    rw [hpc] at hstep
    cases e <;> cases hstep
  | outOfBounds =>
    rw [hpc] at hstep
    cases e <;> cases hstep
  | recvfrom b =>
    have hserver := h.server
    rw [hpc] at hstep hserver
    obtain ⟨hserving, hfresh⟩ := hserver
    cases e with
    | receive i =>
      obtain ⟨d, hd, heq⟩ := Option.map_eq_some_iff.mp hstep
      obtain ⟨hpc', hm⟩ : (serve b i d st.mem).1 = pc ∧ (serve b i d st.mem).2 = m :=
        ⟨congrArg Prod.fst heq, congrArg (fun r => r.2.1) heq⟩
      constructor
      · intro j
        show ClientInv c m j (Function.update st.pc .server pc (.client j))
        rw [hclient j]
        by_cases hj : j = i
        · subst hj
          rcases serve_outcome h hpc hd with ⟨-, hserve⟩ | ⟨k, s, -, -, -, hserve⟩ |
            ⟨t, b', ht, hclosing, hb', hserve⟩ <;> rw [hserve] at hm <;> subst hm
          · exact clientInv_fewer (h.client j) (by simp) (fun r hr => hr) id
          · exact clientInv_fewer (h.client j) (by simp) (fun r hr => hr) fun _ => rfl
          · exact clientInv_answered (h.client j) hd ht hclosing hb' (by simp) (by simp) rfl
        · rcases serve_outcome h hpc hd with ⟨-, hserve⟩ | ⟨k, s, -, -, -, hserve⟩ |
            ⟨t, b', -, -, -, hserve⟩ <;> rw [hserve] at hm <;> subst hm <;>
            exact clientInv_congr (h.client j) (by simp [hj]) (by simp [hj]) (by simp)
      · show ServerInv _ (Function.update st.pc .server pc .server)
        rw [Function.update_self]
        rcases serve_outcome h hpc hd with ⟨hone, hserve⟩ | ⟨k, s, hplace, hlast, hclosing, hserve⟩ |
          ⟨t, b', ht, hclosing, hb', hserve⟩ <;> rw [hserve] at hm hpc' <;> subst hm <;> subst hpc'
        · exact ⟨hserving, hone⟩
        · exact ⟨rfl, i, k, s, (hclient i).trans hplace, hlast, hclosing⟩
        · refine ⟨hserving, fun hone hagain => ?_⟩
          -- the one client has greeted the server
          obtain ⟨j, hj⟩ := hagain
          have hsub : j = i := by
            have := j.isLt
            have := i.isLt
            exact Fin.ext (by omega)
          subst hsub
          rcases hj with hj | ⟨hj, hrequest⟩
          · have hgreet := (hclient j).symm.trans hj
            have hinv := h.client j
            rw [hgreet] at hinv
            cases hinv.1.symm.trans hd
          · exact absurd (by simp) hrequest
    | ok | loseRequest | loseReply | refused => cases hstep

/-! ## 4. Every interleaving -/

theorem update_sub (f : Fin c.clients → Option (List UInt8)) (d : List UInt8)
    (h : d ∈ Function.update f i none j) : d ∈ f j := by
  by_cases hj : j = i
  · subst hj
    simp at h
  · rwa [Function.update_of_ne hj] at h

theorem network_step {e : Event c} {pc : Unit} {op : SemOp Empty} {sem : Empty → Int} (h : Inv st)
    (hstep : network (st.pc .network) st.mem e = some (pc, m, op)) :
    Inv (⟨Function.update st.pc .network pc, m, sem⟩ : State c) := by
  have hparty : ∀ p ≠ Party.network, Function.update st.pc .network pc p = st.pc p :=
    fun p hp => Function.update_of_ne hp _ _
  have hclient : ∀ j, Function.update st.pc .network pc (.client j) = st.pc (.client j) :=
    fun j => hparty _ (by simp)
  obtain ⟨hrequests, hreplies, hserving⟩ : (∀ j d, d ∈ m.requests j → d ∈ st.mem.requests j) ∧
      (∀ j r, r ∈ m.replies j → r ∈ st.mem.replies j) ∧ m.serving = st.mem.serving := by
    cases e <;> cases hstep
    · exact ⟨fun j d hd => update_sub _ d hd, fun j r hr => hr, rfl⟩
    · exact ⟨fun j d hd => hd, fun j r hr => update_sub _ r hr, rfl⟩
  constructor
  · intro j
    show ClientInv c m j (Function.update st.pc .network pc (.client j))
    rw [hclient j]
    exact clientInv_fewer (h.client j) (hrequests j) (hreplies j) hserving.trans
  · have hserver := h.server
    show ServerInv _ (Function.update st.pc .network pc .server)
    rw [hparty .server (by simp)]
    cases hpc : st.pc .server with
    | recvfrom b =>
      rw [hpc] at hserver
      refine ⟨hserving.trans hserver.1, fun hone hagain => hserver.2 hone ?_⟩
      obtain ⟨j, hj⟩ := hagain
      refine ⟨j, hj.imp (hclient j).symm.trans fun hg => ⟨(hclient j).symm.trans hg.1, ?_⟩⟩
      intro hnone
      obtain ⟨d, hd⟩ := Option.ne_none_iff_exists'.mp hg.2
      have := hrequests j d hd
      rw [hnone] at this
      cases this
    | returned =>
      rw [hpc] at hserver
      obtain ⟨hclosed, j, k, s, hplace, hlast, hclosing⟩ := hserver
      exact ⟨hserving.trans hclosed, j, k, s, (hclient j).trans hplace, hlast, hclosing⟩
    | outOfBounds =>
      rw [hpc] at hserver
      exact ⟨hserving.trans hserver.1, hserver.2⟩

theorem greet_of_greeted {pc pc' : ClientPlace} {e : Event c} {op : SemOp Empty}
    (hstep : client i pc m e = some (pc', m', op))
    (h : pc' = ClientPlace.greet ∨ pc' = ClientPlace.greeted) : pc = ClientPlace.greet := by
  have hprint : ∀ k b, ¬ (print k b = ClientPlace.greet ∨ print k b = ClientPlace.greeted) := by
    intro k b
    unfold print
    split <;> simp
  cases pc with
  | greet => rfl
  | greeted =>
    cases e <;> try cases hstep
    obtain ⟨r, hr, heq⟩ := Option.map_eq_some_iff.mp hstep
    cases heq
    simp at h
  | enter k =>
    cases e <;> try cases hstep
    rw [client] at hstep
    split at hstep <;> cases hstep
    · simp at h
    · split at h <;> simp at h
  | recv k =>
    cases e with
    | ok =>
      obtain ⟨r, hr, heq⟩ := Option.map_eq_some_iff.mp hstep
      cases heq
      exact absurd h (hprint _ _)
    | refused =>
      rw [client] at hstep
      split at hstep
      · cases hstep
      · obtain ⟨d, hd, heq⟩ := Option.map_eq_some_iff.mp hstep
        cases heq
        exact absurd h (hprint _ _)
    | receive | loseRequest | loseReply => cases hstep
  | returned k => cases e <;> cases hstep
  | outOfBounds => cases e <;> cases hstep

theorem inv_step {e : Event c} {p : Party c} (hinput : ∀ i, NUL ∉ c.input i) (h : Inv st)
    (hstep : step c st (p, e) = some st') : Inv st' := by
  obtain ⟨pc, m, op, sem, hnext, -, rfl⟩ := Sys.step_cases hstep
  cases p with
  | server => exact server_step h hnext
  | network => exact network_step h hnext
  | client i =>
    obtain ⟨hi, hserving, hothers⟩ := client_step (hinput i) (h.client i) hnext
    have hparty : ∀ p ≠ Party.client i, Function.update st.pc (.client i) pc p = st.pc p :=
      fun p hp => Function.update_of_ne hp _ _
    constructor
    · intro j
      show ClientInv c m j (Function.update st.pc (.client i) pc (.client j))
      by_cases hj : j = i
      · subst hj
        rwa [Function.update_self]
      · rw [hparty _ (by simpa using hj)]
        obtain ⟨hrequests, hreplies⟩ := hothers j hj
        exact clientInv_congr (h.client j) hrequests hreplies hserving.trans
    · have hserver := h.server
      show ServerInv _ (Function.update st.pc (.client i) pc .server)
      rw [hparty .server (by simp)]
      cases hpc : st.pc .server with
      | recvfrom b =>
        rw [hpc] at hserver
        refine ⟨hserving.trans hserver.1, fun hone hagain => hserver.2 hone ?_⟩
        obtain ⟨j, hj⟩ := hagain
        change Function.update st.pc (.client i) pc (.client j) = ClientPlace.greet ∨
          Function.update st.pc (.client i) pc (.client j) = ClientPlace.greeted ∧
            m.requests j ≠ none at hj
        by_cases hji : j = i
        · subst hji
          rw [Function.update_self] at hj
          exact ⟨j, Or.inl (greet_of_greeted hnext (hj.imp_right And.left))⟩
        · rw [hparty _ (by simpa using hji), (hothers j hji).1] at hj
          exact ⟨j, hj⟩
      | returned =>
        rw [hpc] at hserver
        obtain ⟨hclosed, j, k, s, hplace, hlast, hclosing⟩ := hserver
        refine ⟨hserving.trans hclosed, j, k, s, ?_, hlast, hclosing⟩
        by_cases hj : j = i
        · -- a client that has left takes no step
          subst hj
          have hleft : client j (st.pc (.client j)) st.mem e = some (pc, m, op) := hnext
          rw [hplace] at hleft
          cases e <;> cases hleft
        · exact (hparty _ (by simpa using hj)).trans hplace
      | outOfBounds =>
        rw [hpc] at hserver
        exact ⟨hserving.trans hserver.1, hserver.2⟩

/-- **Each client is answered with what it has said itself.** The server leaves for a closing text
    only, and with one client it stays in its buffer. -/
theorem conversation (hinput : ∀ i, NUL ∉ c.input i)
    (h : Reaches (step c) (fun _ _ => True) (init c) st) :
    (∀ i k, st.pc (.client i) = ClientPlace.enter k ∨ st.pc (.client i) = ClientPlace.recv k ∨
        st.pc (.client i) = ClientPlace.returned k →
      lines k.said.length (c.input i) <+: k.said ∧
      ∀ (n : Nat) (u : List UInt8), k.printed[n]? = some u → ∃ s, k.said[n]? = some s ∧
        (u = s ++ ascii "!" ∨ st.mem.serving = false ∧ u = s)) ∧
    (∀ i, st.pc (.client i) ≠ ClientPlace.outOfBounds) ∧
    (st.pc .server = ServerPlace.returned → ∃ i k s,
      st.pc (.client i) = ClientPlace.returned k ∧ k.said.getLast? = some s ∧ Closing s) ∧
    (st.pc .server = ServerPlace.outOfBounds → 1 < c.clients) := by
  have hinv : Inv st := h.invariant inv_init fun s a s' hs _ hstep => inv_step hinput hs hstep
  refine ⟨?_, ?_, ?_, ?_⟩
  · intro i k hplace
    have hi := hinv.client i
    rcases hplace with hplace | hplace | hplace <;> rw [hplace] at hi
    · exact ⟨hi.2.2.1.said_of_lines, hi.2.2.2.1⟩
    · exact ⟨hi.2.1.said_of_lines, hi.2.2.1⟩
    · exact ⟨hi.2.2.1.said_of_lines, hi.2.2.2.1⟩
  · intro i hplace
    have hi := hinv.client i
    rw [hplace] at hi
    exact hi
  · intro hplace
    have hserver := hinv.server
    rw [hplace] at hserver
    exact hserver.2
  · intro hplace
    have hserver := hinv.server
    rw [hplace] at hserver
    exact hserver.2

/-- One client, and a conversation that it closes. -/
def one : Config := ⟨1, fun _ => ascii "hello\nclose\n"⟩

def guest : Fin one.clients := ⟨0, Nat.one_pos⟩

def exchange : List (Party one × Event one) :=
  [(.client guest, .ok), (.server, .receive guest), (.client guest, .ok), (.client guest, .ok),
    (.server, .receive guest), (.client guest, .ok), (.client guest, .ok), (.server, .receive guest)]

/-- The texts of a client that has left. -/
def ClientPlace.texts : ClientPlace → Option (List (List UInt8) × List (List UInt8))
  | .returned k => some (k.said, k.printed)
  | _ => none

def ServerPlace.hasLeft : ServerPlace → Bool
  | .returned => true
  | _ => false

/-- The text is answered, and both leave at the closing one. -/
theorem conversation_one : ∃ st k, Reaches (step one) (fun _ _ => True) (init one) st ∧
    st.pc (.client guest) = ClientPlace.returned k ∧ k.said = [ascii "hello", ascii "close"] ∧
    k.printed = [ascii "hello!"] ∧ st.pc .server = ServerPlace.returned ∧
    lines k.said.length (one.input guest) <+: k.said ∧
    (∃ s, k.said[0]? = some s ∧
      (ascii "hello!" = s ++ ascii "!" ∨ st.mem.serving = false ∧ ascii "hello!" = s)) ∧
    ∃ i k' s, st.pc (.client i) = ClientPlace.returned k' ∧ k'.said.getLast? = some s ∧
      Closing s := by
  have hrun : ((run (step one) exchange (init one)).map fun st =>
      ((ClientPlace.texts (st.pc (.client guest))), ServerPlace.hasLeft (st.pc .server))) =
        some (some ([ascii "hello", ascii "close"], [ascii "hello!"]), true) := by decide +kernel
  obtain ⟨st, hst, heq⟩ := Option.map_eq_some_iff.mp hrun
  obtain ⟨htexts, hleft⟩ := Prod.mk.inj heq
  have hreach := reaches_of_run (fun _ _ _ => trivial) Reaches.start hst
  obtain ⟨k, hk, hsaid, hprinted⟩ : ∃ k, st.pc (.client guest) = ClientPlace.returned k ∧
      k.said = [ascii "hello", ascii "close"] ∧ k.printed = [ascii "hello!"] := by
    cases hpc : st.pc (.client guest) with
    | returned k =>
      rw [hpc] at htexts
      exact ⟨k, rfl, Prod.mk.inj (Option.some.inj htexts)⟩
    | greet | greeted | enter k | recv k | outOfBounds =>
      rw [hpc] at htexts
      cases htexts
  have hserver : st.pc .server = ServerPlace.returned := by
    cases hpc : st.pc .server with
    | returned => rfl
    | recvfrom b | outOfBounds =>
      rw [hpc] at hleft
      cases hleft
  obtain ⟨htalk, -, hclosed, -⟩ := conversation (by decide) hreach
  obtain ⟨hlines, hanswers⟩ := htalk guest k (Or.inr (Or.inr hk))
  exact ⟨st, k, hreach, hk, hsaid, hprinted, hserver, hlines,
    hanswers 0 _ (by rw [hprinted]; rfl), hclosed hserver⟩

end EchoServer
end Labs
