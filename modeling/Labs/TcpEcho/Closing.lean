import Labs.Lib.Progress
import Labs.TcpEcho.Service

/-!
# How the service ends

With clients that close the conversation at some time, every run ends. `left` bounds the number of
its steps: four for each text, and five around them for each client. The server serves as many
clients as it is told to, and one more; the others are refused, or print nothing.

A client whose input does not close the conversation says its last text for ever, and the server
stays with it.

## What is counted

A text costs four steps: the client says it, the server receives it and answers, the client receives
the answer. `left` counts them where they are to be made: `clientLeft` for the texts that the client
has not said, `underWay` for one that is in the stream, `serverLeft` for what the server does with a
client around its texts. The last is multiplied by the clients that have not been served, so the
server may spend steps on accepting and asking.

A client hangs up without telling the server, and the server hangs up on clients that are still in
the queue. Both take something out of the streams, so the measure has to be looked at there as well
(`underWay_hangUp`); otherwise a step changes one connection, and the sum changes in one summand.

## Where a run stands still

A state without a step is taken apart by where the server stands. It cannot stand in the middle of a
conversation, for either the client has put something into the stream, or it has left and the stream
is closed (`Link.waits`). So it has left, or waits in `accept` with an empty queue; and then the
clients are through, refused, or have never come to the head of the queue (`stuck_server`,
`stuck_client`).

The bound is for inputs that close the conversation. `never_released` is the other case: it needs a
client whose input is not empty and does not close, and shows that the server never serves another.
-/

namespace Labs
namespace TcpEcho

open Lib
open EchoServer (BUFFER_SIZE Buffer Client Closing lines next)

variable {c : Config} {i j : Fin c.clients} {m m' : Net c} {k : Client} {st st' : State c}
  {pcs : Fin c.clients → ClientPlace} {pc pc' : ClientPlace} {sp sp' : ServerPlace c}

/-! ## 1. Every interleaving -/

/-- The places of the clients. -/
def places (st : State c) (i : Fin c.clients) : ClientPlace := st.pc (.client i)

def Ok (st : State c) : Prop := Inv c (places st) st.mem (st.pc .server)

theorem ok_init (c : Config) : Ok (init c) := by
  refine ⟨List.nodup_nil, fun i _ _ => ⟨Or.inl rfl, rfl, rfl⟩, fun i hi => ?_, rfl,
    ⟨fun i hi => ?_, rfl⟩, rfl, Nat.zero_le _⟩
  · exact absurd hi List.not_mem_nil
  · exact absurd hi List.not_mem_nil

/-- What a step does to the places, and which function of the source it is a step of. -/
theorem step_party {p : Party c} {e : Event} (h : step c st (p, e) = some st') :
    (∃ op, server (st.pc .server) st.mem e = some (st'.pc .server, st'.mem, op) ∧
        places st' = places st) ∨
      ∃ i op pc, client i (places st i) st.mem e = some (pc, st'.mem, op) ∧
        places st' = Function.update (places st) i pc ∧ st'.pc .server = st.pc .server := by
  obtain ⟨pc, m, op, sem, hnext, -, rfl⟩ := Sys.step_cases h
  cases p with
  | server =>
    refine Or.inl ⟨op, ?_, ?_⟩
    · show server (st.pc .server) st.mem e = some (Function.update st.pc .server pc .server, m, op)
      rw [Function.update_self]
      exact hnext
    · funext j
      show Function.update st.pc .server pc (.client j) = _
      rw [Function.update_of_ne (by simp)]
      rfl
  | client i =>
    refine Or.inr ⟨i, op, pc, hnext, ?_, ?_⟩
    · funext j
      show Function.update st.pc (.client i) pc (.client j) = _
      by_cases hj : j = i
      · subst hj
        rw [Function.update_self, Function.update_self]
      · rw [Function.update_of_ne (by simpa using hj), Function.update_of_ne hj]
        rfl
    · show Function.update st.pc (.client i) pc .server = _
      rw [Function.update_of_ne (by simp)]

theorem ok_step {a : Party c × Event} (hinput : ∀ i, NUL ∉ c.input i) (h : Ok st)
    (hstep : step c st a = some st') : Ok st' := by
  unfold Ok at h ⊢
  rcases step_party hstep with ⟨op, hserver, hplaces⟩ | ⟨i, op, pc, hclient, hplaces, hserver⟩
  · rw [hplaces]
    exact inv_server h hserver
  · rw [hplaces, hserver]
    exact inv_client hinput h hclient

theorem ok_of_reaches (hinput : ∀ i, NUL ∉ c.input i)
    (h : Reaches (step c) (fun _ _ => True) (init c) st) : Ok st :=
  h.invariant (ok_init c) fun _ _ _ hok _ hstep => ok_step hinput hok hstep

theorem Inv.length_le (h : Inv c pcs m sp) : sp.served.length + m.queue.length ≤ c.clients := by
  have := h.nodup.length_le_card
  rwa [List.length_append, Fintype.card_fin] at this

/-- What the client has printed are the answers to its first texts. -/
def Answered (i : Fin c.clients) (k : Client) : Prop :=
  lines k.said.length (c.input i) <+: k.said ∧ k.printed = (k.said.take k.printed.length).map bang

theorem Talks.answered {w : Nat} (h : Talks (c.input i) w k) : Answered i k :=
  ⟨h.spoken.said_of_lines, h.echoed⟩

theorem Link.answered {held : Option Buffer} {log : List (List UInt8)} (h : Link c i m held log pc)
    (hpc : pc = .enter k ∨ pc = .recv k ∨ pc = .returned k) : Answered i k ∧ log <+: k.said := by
  rcases hpc with rfl | rfl | rfl
  · exact ⟨h.2.2.1.answered, h.2.1 ▸ List.prefix_rfl⟩
  · obtain ⟨htalks, front, s, -, -, -, hdue⟩ := h
    refine ⟨htalks.answered, ?_⟩
    cases hdue with
    | sent _ _ _ before => exact ⟨[s], before⟩
    | heard _ _ _ _ _ all => exact all ▸ List.prefix_rfl
    | answered _ _ _ _ _ all => exact all ▸ List.prefix_rfl
  · exact ⟨h.2.2.1.answered, h.2.1 ▸ List.prefix_rfl⟩

theorem Left.answered (h : Left i pc) (hpc : pc = .returned k) : Answered i k := by
  obtain ⟨hends, k', hk', hsaid, hprinted⟩ := h
  cases hk'.symm.trans hpc
  have hlen : k.printed.length = k.said.length := by rw [hprinted, List.length_map]
  refine ⟨?_, by rw [hlen, List.take_of_length_le (le_refl _)]; exact hprinted⟩
  rw [hsaid, lines_texts]

/-- Where a client is, at any time. -/
theorem Inv.place (h : Inv c pcs m sp) (i : Fin c.clients) :
    pcs i = .connect ∨ pcs i = .refused ∨ (∃ k, pcs i = .returned k ∧ Answered i k) ∨
      ∃ held log, Link c i m held log (pcs i) := by
  by_cases hserved : i ∈ sp.served
  · rcases h.of_served hserved with hleft | ⟨-, S, before, log, ⟨-, hs⟩ | ⟨-, hs⟩⟩
    · obtain ⟨k, hk, -⟩ := hleft.2
      exact Or.inr (Or.inr (Or.inl ⟨k, hk, hleft.answered hk⟩))
    · exact Or.inr (Or.inr (Or.inr ⟨_, log, hs.link⟩))
    · exact Or.inr (Or.inr (Or.inr ⟨_, log, hs.link⟩))
  · by_cases hq : i ∈ m.queue
    · rcases h.queued i hq with hlink | ⟨-, k, w, hk, htalks, -⟩
      · exact Or.inr (Or.inr (Or.inr ⟨none, [], hlink⟩))
      · exact Or.inr (Or.inr (Or.inl ⟨k, hk, htalks.answered⟩))
    · exact (h.outside i hserved hq).place.imp_right fun hrefused => Or.inl hrefused.1

/-! ## 2. The number of steps -/

def clientLeft (total : Nat) : ClientPlace → Nat
  | .connect => 4 * total + 2
  | .enter k => 4 * (total - k.said.length) + 1
  | .recv k => 4 * (total - k.said.length) + 2
  | .returned _ | .refused | .outOfBounds => 0

def underWay (s : Stream) : Nat := if s.bytes = [] then 0 else 2

def serverLeft (c : Config) : ServerPlace c → Nat
  | .accept S => 3 * (c.clients - S.served.length) + 2
  | .recv _ S => 3 * (c.clients - S.served.length) + 4
  | .send _ S => 3 * (c.clients - S.served.length) + 5
  | .ask S => 3 * (c.clients - S.served.length) + 3
  | .closed _ => 1
  | .returned _ | .outOfBounds => 0

def linkLeft (pcs : Fin c.clients → ClientPlace) (m : Net c) (i : Fin c.clients) : Nat :=
  clientLeft (texts (c.input i)).length (pcs i) + underWay (m.toServer i)

def left (st : State c) : Nat :=
  ∑ i, linkLeft (places st) st.mem i + serverLeft c (st.pc .server)

theorem left_init (c : Config) :
    left (init c) = ∑ i, (4 * (texts (c.input i)).length + 5) + 2 := by
  have hlink : ∀ i, linkLeft (places (init c)) (init c).mem i = 4 * (texts (c.input i)).length + 2 :=
    fun _ => rfl
  show ∑ i, linkLeft (places (init c)) (init c).mem i + (3 * (c.clients - 0) + 2) = _
  simp only [hlink, Finset.sum_add_distrib, Finset.sum_const, Finset.card_univ, Fintype.card_fin]
  simp
  omega

theorem Talks.length_said_le {inp : List UInt8} {w : Nat} (h : Talks inp w k) (hends : Ends inp) :
    k.said.length ≤ (texts inp).length :=
  TcpEcho.length_said_le hends h.spoken.said_of_lines h.opened

theorem underWay_hangUp (m : Net c) (i : Fin c.clients) :
    underWay ((m.hangUp i).toServer i) = underWay (m.toServer i) := by
  rw [Net.hangUp, toServer_setToServer]
  rfl

theorem underWay_le (s : Stream) : underWay s ≤ 2 := by
  unfold underWay
  split <;> omega

theorem clientLeft_told (total : Nat) (k : Client) (b : Buffer) :
    clientLeft total (told k b) < clientLeft total (.recv k) := by
  unfold told
  split
  · exact Nat.succ_pos _
  · exact Nat.lt_succ_self _

/-- A client brings down what is left, also where it puts a text under way. -/
theorem client_left {e : Event} {op : SemOp Empty} (hinput : NUL ∉ c.input i)
    (hends : Ends (c.input i)) {held : Option Buffer} {log : List (List UInt8)}
    (h : Link c i m held log pc) (hstep : client i pc m e = some (pc', m', op)) :
    clientLeft (texts (c.input i)).length pc' + underWay (m'.toServer i) <
      clientLeft (texts (c.input i)).length pc + underWay (m.toServer i) := by
  have hne : c.input i ≠ [] := by
    intro hnil
    rw [hnil] at hends
    obtain ⟨s, hs, -⟩ := hends
    cases hs
  cases pc with
  | connect | refused => exact h.elim
  | returned k =>
    rw [client_returned] at hstep
    cases hstep
  | outOfBounds => exact absurd h.2.2 hne
  | enter k =>
    obtain ⟨hfirst, b, hsay, -, -⟩ := h.say hinput hne
    obtain ⟨hresting, -, htalks, -⟩ := h
    have hleaves : clientLeft (texts (c.input i)).length (.returned k) +
        underWay ((m.hangUp i).toServer i) <
        clientLeft (texts (c.input i)).length (.enter k) + underWay (m.toServer i) := by
      rw [underWay_hangUp]
      exact Nat.add_lt_add_right (Nat.succ_pos _) _
    cases e with
    | ok =>
      by_cases hclosing : Closing (next (shown k.said) k.input)
      · rw [client, hsay, decide_eq_true hclosing] at hstep
        cases hstep
        exact hleaves
      · rw [client, hsay, decide_eq_false hclosing] at hstep
        have hsent := underWay_le (m'.toServer i)
        cases hstep
        have hsaid := (htalks.say hne b _ hclosing).length_said_le hends
        rw [List.length_append, List.length_singleton] at hsaid
        show 4 * (_ - (k.said ++ _).length) + 2 + _ < 4 * (_ - k.said.length) + 1 + _
        rw [List.length_append, List.length_singleton]
        omega
    | fails =>
      rw [client, hsay] at hstep
      split at hstep <;> cases hstep
      exact hleaves
  | recv k =>
    cases e with
    | ok =>
      obtain ⟨r, -, heq⟩ := Option.map_eq_some_iff.mp hstep
      cases heq
      exact Nat.add_lt_add_right (clientLeft_told _ k _) _
    | fails =>
      rw [client] at hstep
      split at hstep <;> cases hstep
      rw [underWay_hangUp]
      exact Nat.add_lt_add_right (Nat.succ_pos _) _

theorem clientLeft_connect {e : Event} {op : SemOp Empty}
    (hstep : client i .connect m e = some (pc', m', op)) (total : Nat) :
    clientLeft total pc' < clientLeft total .connect ∧ m'.toServer = m.toServer := by
  cases e with
  | fails => cases hstep
  | ok =>
    rw [client] at hstep
    split at hstep
    · cases hstep
      exact ⟨Nat.succ_pos _, rfl⟩
    · split at hstep <;> cases hstep
      exact ⟨Nat.lt_succ_self _, rfl⟩

/-- Where a client that can move is. -/
theorem Inv.of_moves {e : Event} (h : Inv c pcs m sp) (hmoves : client i (pcs i) m e ≠ none) :
    pcs i = .connect ∨ ∃ held log, Link c i m held log (pcs i) := by
  rcases h.place i with hconnect | hrefused | ⟨k, hk, -⟩ | hlink
  · exact Or.inl hconnect
  · rw [hrefused] at hmoves
    cases e <;> exact absurd rfl hmoves
  · rw [hk] at hmoves
    exact absurd client_returned hmoves
  · exact Or.inr hlink

/-- The server has a step less to go, or has taken a text that was under way. -/
theorem server_left {e : Event} {op : SemOp Empty} (h : Inv c pcs m sp)
    (hstep : server sp m e = some (sp', m', op)) :
    ∑ i, linkLeft pcs m' i + serverLeft c sp' < ∑ i, linkLeft pcs m i + serverLeft c sp := by
  have hserver := h.server
  have hlen := h.length_le
  cases e with
  | fails => cases sp <;> cases hstep
  | ok =>
    cases sp with
    | returned S => cases hstep
    | outOfBounds => cases hstep
    | accept S =>
      rw [server] at hstep
      cases hqueue : m.queue with
      | nil =>
        rw [hqueue] at hstep
        cases hstep
      | cons i queue =>
        rw [hqueue] at hstep hlen
        cases hstep
        refine Nat.add_lt_add_left ?_ _
        change S.served.length + (queue.length + 1) ≤ c.clients at hlen
        show 3 * (c.clients - (S.served ++ [i]).length) + 4 < 3 * (c.clients - S.served.length) + 2
        rw [List.length_append, List.length_singleton]
        omega
    | recv i S =>
      obtain ⟨-, before, log, hs⟩ := hserver
      obtain ⟨r, hr, heq⟩ := Option.map_eq_some_iff.mp hstep
      cases heq
      have hsum := @sum_of_moved _ _ (linkLeft pcs (m.setToServer i r.2)) (linkLeft pcs m) i
        fun j hj => by
          rw [linkLeft, linkLeft, ((beside_setToServer m i r.2).others j hj).1]
      rw [linkLeft, linkLeft, toServer_setToServer] at hsum
      rcases @heard_step _ _ _ _ _ S r hs.link hr with
        ⟨hask, hsame, -, -⟩ | ⟨b, s, hsend, hidle, hsome, -⟩
      · rw [hsame] at hsum ⊢
        rw [hask]
        show _ + (3 * (c.clients - S.served.length) + 3) < _ + (3 * (c.clients - S.served.length) + 4)
        omega
      · have htaken : underWay (m.toServer i) = 2 := if_neg hsome
        have hnone : underWay r.2 = 0 := by rw [hidle]; rfl
        rw [hsend]
        show _ + (3 * (c.clients - S.served.length) + 5) < _ + (3 * (c.clients - S.served.length) + 4)
        omega
    | send i S =>
      obtain ⟨-, before, log, hs⟩ := hserver
      obtain ⟨b, hb, -, -⟩ := answer_step hs.link
      rw [server, hb] at hstep
      cases hstep
      exact Nat.add_lt_add_left (Nat.lt_succ_self _) _
    | ask S =>
      rw [server] at hstep
      split at hstep <;> cases hstep
      · exact Nat.add_lt_add_left (Nat.lt_succ_self _) _
      · refine Nat.add_lt_add_left ?_ _
        show 1 < 3 * (c.clients - S.served.length) + 3
        omega
    | closed S =>
      cases hstep
      exact Nat.add_lt_add_left Nat.one_pos _

theorem left_lt {a : Party c × Event} (hinput : ∀ i, NUL ∉ c.input i)
    (hends : ∀ i, Ends (c.input i)) (h : Ok st) (hstep : step c st a = some st') :
    left st' < left st := by
  unfold left
  rcases step_party hstep with ⟨op, hserver, hplaces⟩ | ⟨i, op, pc, hclient, hplaces, hserver⟩
  · rw [hplaces]
    exact server_left h hserver
  · rw [hserver]
    refine Nat.add_lt_add_right ?_ _
    have hmoved : clientLeft (texts (c.input i)).length pc + underWay (st'.mem.toServer i) <
          linkLeft (places st) st.mem i ∧
        ∀ j ≠ i, st'.mem.toServer j = st.mem.toServer j := by
      rcases h.of_moves (by rw [hclient]; simp) with hconnect | ⟨held, log, hlink⟩
      · rw [hconnect] at hclient
        obtain ⟨hless, hsame⟩ := clientLeft_connect hclient (texts (c.input i)).length
        rw [linkLeft, hconnect, hsame]
        exact ⟨Nat.add_lt_add_right hless _, fun _ _ => rfl⟩
      · obtain ⟨-, hm⟩ := client_step (hinput i) hlink hclient
        exact ⟨client_left (hinput i) (hends i) hlink hclient, fun j hj => (hm.others j hj).1⟩
    rw [hplaces]
    refine sum_lt_of_moved i (fun j hj => ?_) ?_
    · rw [linkLeft, linkLeft, Function.update_of_ne hj, hmoved.2 j hj]
    · rw [linkLeft, Function.update_self]
      exact hmoved.1

/-! ## 3. Where nothing can happen any more -/

/-- A connected client that cannot move has left, or waits; the server has something to receive. -/
theorem Link.waits {held : Option Buffer} {log : List (List UInt8)} (h : Link c i m held log pc)
    (hends : Ends (c.input i)) (hstuck : client i pc m .ok = none) :
    ∃ k, (pc = .returned k ∧ k.printed.length ≤ log.length ∨ pc = .recv k) ∧
      (held = none → (m.toServer i).recv ≠ none) := by
  cases pc with
  | connect | refused => exact h.elim
  | enter k =>
    rw [client] at hstuck
    split at hstuck <;> cases hstuck
  | outOfBounds =>
    obtain ⟨-, -, hnil⟩ := h
    rw [hnil] at hends
    obtain ⟨s, hs, -⟩ := hends
    cases hs
  | returned k =>
    obtain ⟨hresting, hlog, htalks, -⟩ := h
    have := htalks.spoken.length_said
    refine ⟨k, Or.inl ⟨rfl, by rw [hlog]; omega⟩, fun _ => ?_⟩
    rw [hresting.toServer, recv_ended]
    simp
  | recv k =>
    obtain ⟨-, front, s, -, -, -, hdue⟩ := h
    refine ⟨k, Or.inr rfl, fun hnone => ?_⟩
    cases hdue with
    | sent toServer =>
      rw [toServer, recv_whole k.buffer.size_eq]
      simp
    | heard _ _ _ some => cases hnone.symm.trans some
    | answered r _ toClient hreply =>
      rw [client, toClient, recv_whole hreply.1] at hstuck
      cases hstuck

theorem server_stuck (hstuck : ∀ a, step c st a = none) (e : Event) :
    server (st.pc .server) st.mem e = none := by
  by_contra hsome
  obtain ⟨r, hr⟩ := Option.ne_none_iff_exists'.mp hsome
  have hmoves := @Sys.step_isSome _ _ _ _ _ _ _ (program c) st .server e r hr fun x _ => x.elim
  rw [show Sys.step (program c) st (.server, e) = none from hstuck _] at hmoves
  cases hmoves

theorem client_stuck (hstuck : ∀ a, step c st a = none) (i : Fin c.clients) (e : Event) :
    client i (places st i) st.mem e = none := by
  by_contra hsome
  obtain ⟨r, hr⟩ := Option.ne_none_iff_exists'.mp hsome
  have hmoves := @Sys.step_isSome _ _ _ _ _ _ _ (program c) st (.client i) e r hr fun x _ => x.elim
  rw [show Sys.step (program c) st (.client i, e) = none from hstuck _] at hmoves
  cases hmoves

/-- **Where the service stands still**, the server has left, or waits for more clients. -/
theorem stuck_server (h : Ok st) (hends : ∀ i, Ends (c.input i))
    (hstuck : ∀ a, step c st a = none) :
    ∃ S, Served (places st) S ∧
      (st.pc .server = .accept S ∧ st.mem.listening = true ∧ st.mem.queue = [] ∧
          S.served.length ≤ granted c.answers ∨
        st.pc .server = .returned S ∧ st.mem.listening = false ∧
          S.served.length = granted c.answers + 1) := by
  have hserver := h.server
  have hnone := server_stuck hstuck .ok
  cases hsp : st.pc .server with
  | accept S =>
    rw [hsp] at hserver hnone
    obtain ⟨hlistening, hserved, -, hgranted⟩ := hserver
    refine ⟨S, hserved, Or.inl ⟨rfl, hlistening, ?_, hgranted⟩⟩
    rw [server] at hnone
    cases hqueue : st.mem.queue with
    | nil => rfl
    | cons i queue =>
      rw [hqueue] at hnone
      cases hnone
  | recv i S =>
    rw [hsp] at hserver hnone
    obtain ⟨-, before, log, hs⟩ := hserver
    obtain ⟨k, -, hrecv⟩ := hs.link.waits (hends i) (client_stuck hstuck i .ok)
    exact absurd (Option.map_eq_none_iff.mp hnone) (hrecv rfl)
  | send i S =>
    rw [hsp] at hserver hnone
    obtain ⟨-, before, log, hs⟩ := hserver
    obtain ⟨b, hb, -⟩ := answer_step hs.link
    rw [server, hb] at hnone
    cases hnone
  | ask S =>
    rw [hsp, server] at hnone
    split at hnone <;> cases hnone
  | closed S =>
    rw [hsp] at hnone
    cases hnone
  | returned S =>
    rw [hsp] at hserver
    exact ⟨S, hserver.2.1, Or.inr ⟨rfl, hserver.1, hserver.2.2⟩⟩
  | outOfBounds =>
    rw [hsp] at hserver
    exact hserver.elim

/-- Where a client stands that the server has not accepted. -/
theorem stuck_client (h : Ok st) (hends : ∀ i, Ends (c.input i))
    (hstuck : ∀ a, step c st a = none) (hi : i ∉ (st.pc .server).served) :
    (st.mem.listening = true → st.mem.queue ≠ []) ∧ (st.mem.listening = false →
      places st i = .refused ∨ ∃ k, places st i = .returned k ∧ k.printed = []) := by
  by_cases hq : i ∈ st.mem.queue
  · refine ⟨fun _ hnil => ?_, fun hclosed => Or.inr ?_⟩
    · rw [hnil] at hq
      cases hq
    · rcases h.queued i hq with hlink | ⟨-, k, -, hk, -, hprinted⟩
      · obtain ⟨k, ⟨hk, hprinted⟩ | hk, -⟩ := hlink.waits (hends i) (client_stuck hstuck i .ok)
        · exact ⟨k, hk, List.length_eq_zero_iff.mp (Nat.le_zero.mp hprinted)⟩
        · have hfails := client_stuck hstuck i .fails
          rw [hk, client, if_pos ⟨hclosed, hq⟩] at hfails
          cases hfails
      · exact ⟨k, hk, hprinted⟩
  · rcases (h.outside i hi hq).place with hconnect | ⟨hrefused, hclosed⟩
    · have hnone := client_stuck hstuck i .ok
      rw [hconnect, client] at hnone
      split at hnone
      · cases hnone
      · rename_i hlistening
        split at hnone
        · cases hnone
        · rename_i hlong
          refine ⟨fun _ hnil => ?_, fun hclosed => ?_⟩
          · rw [hnil] at hlong
            exact hlong (Nat.zero_le _)
          · exact absurd (by simp [hclosed]) hlistening
    · refine ⟨fun hlistening => ?_, fun _ => Or.inl hrefused⟩
      rw [hclosed] at hlistening
      cases hlistening

/-- **Every run ends, with as many clients served as the operator lets in, and one more.** Those have
    all their texts answered; the others are refused, or print nothing. The server leaves, unless it
    is told to wait for clients that do not come. -/
theorem service_closes (hinput : ∀ i, NUL ∉ c.input i) (hends : ∀ i, Ends (c.input i)) :
    (∀ as st, run (step c) as (init c) = some st →
      as.length ≤ ∑ i, (4 * (texts (c.input i)).length + 5) + 2) ∧
    ∀ st, Reaches (step c) (fun _ _ => True) (init c) st → (∀ a, step c st a = none) →
      ∃ S, st.pc .server = (if granted c.answers < c.clients then .returned S else .accept S) ∧
        S.served.Nodup ∧ S.served.length = min c.clients (granted c.answers + 1) ∧
        S.printed = transcript S.served ∧ (∀ i ∈ S.served, Left i (places st i)) ∧
        ∀ i ∉ S.served, places st i = .refused ∨ ∃ k, places st i = .returned k ∧ k.printed = [] := by
  refine ⟨fun as st hrun => ?_, fun st hreach hstuck => ?_⟩
  · rw [← left_init]
    exact length_le_of_measure left
      (fun s a s' hok hstep => ⟨ok_step hinput hok hstep, left_lt hinput hends hok hstep⟩)
      (ok_init c) hrun
  · have hok := ok_of_reaches hinput hreach
    obtain ⟨S, hserved, hplace⟩ := stuck_server hok hends hstuck
    have hS : (st.pc .server).served = S.served := by
      rcases hplace with ⟨hsp, -⟩ | ⟨hsp, -⟩ <;> rw [hsp] <;> rfl
    have hnodup : S.served.Nodup := by
      have := hok.nodup
      rw [hS] at this
      exact this.of_append_left
    have hlen : S.served.length ≤ c.clients := by
      have := hok.length_le
      rw [hS] at this
      omega
    have hothers := fun i (hi : i ∉ S.served) =>
      @stuck_client c i st hok hends hstuck (by rw [hS]; exact hi)
    rcases hplace with ⟨hsp, hlistening, hqueue, hgranted⟩ | ⟨hsp, hclosed, hgranted⟩
    · -- nobody is left to come
      have hall : ∀ i, i ∈ S.served := by
        intro i
        by_contra hi
        exact (hothers i hi).1 hlistening hqueue
      have hfull : c.clients ≤ S.served.length := by
        have := Fintype.card_le_of_surjective (fun n : Fin S.served.length => S.served.get n)
          fun i => List.mem_iff_get.mp (hall i)
        simpa using this
      refine ⟨S, ?_, hnodup, by omega, hserved.printed, hserved.left, fun i hi => absurd (hall i) hi⟩
      rw [hsp, if_neg (by omega)]
    · refine ⟨S, ?_, hnodup, by omega, hserved.printed, hserved.left, fun i hi => (hothers i hi).2 hclosed⟩
      rw [hsp, if_pos (by omega)]

/-- Three clients, and an operator who ends each answer with a newline. -/
def three : Config := ⟨3, fun _ => ascii "hi\nclose\n", ascii "y\ny\n"⟩

def first : Fin three.clients := ⟨0, by decide⟩
def second : Fin three.clients := ⟨1, by decide⟩

/-- The newline is the answer to the second question, so one of the three is left out. -/
theorem service_closes_three :
    (∀ as st, run (step three) as (init three) = some st → as.length ≤ 29) ∧
      ∀ st, Reaches (step three) (fun _ _ => True) (init three) st →
        (∀ a, step three st a = none) → ∃ S, st.pc .server = .returned S ∧ S.served.length = 2 := by
  obtain ⟨hlen, hstuck⟩ := @service_closes three (by decide) (by decide)
  have hbound : ∑ i, (4 * (texts (three.input i)).length + 5) + 2 = 29 := by decide
  refine ⟨fun as st hrun => hbound ▸ hlen as st hrun, fun st hreach hnone => ?_⟩
  obtain ⟨S, hplace, -, hserved, -⟩ := hstuck st hreach hnone
  have hgranted : granted three.answers = 1 := by decide
  rw [hgranted] at hplace hserved
  exact ⟨S, hplace, hserved⟩

/-! ## 4. What is printed, and a client that stays -/

def ServerPlace.printed : ServerPlace c → List (Fin c.clients × List UInt8)
  | .accept S | .recv _ S | .send _ S | .ask S | .closed S | .returned S => S.printed
  | .outOfBounds => []

/-- What a client that has left has said and printed. -/
def ClientPlace.talk : ClientPlace → Option (List (List UInt8) × List (List UInt8))
  | .returned k => some (k.said, k.printed)
  | _ => none

/-- **Each client is answered what it has said, and one client is served after another.** Both sides
    stay in their buffers, but for a client without any input. -/
theorem served_in_turn (hinput : ∀ i, NUL ∉ c.input i)
    (h : Reaches (step c) (fun _ _ => True) (init c) st) :
    (∀ i k, places st i = .enter k ∨ places st i = .recv k ∨ places st i = .returned k →
      Answered i k) ∧
    (∀ i, places st i = .outOfBounds → c.input i = []) ∧
    st.pc .server ≠ .outOfBounds ∧
    ∃ before, (∀ i ∈ before, Left i (places st i)) ∧
      ((st.pc .server).served = before ∧ (st.pc .server).printed = transcript before ∨
        ∃ i log, (st.pc .server).served = before ++ [i] ∧
          (st.pc .server).printed = transcript before ++ log.map (fun s => (i, s)) ∧
          ∀ k, places st i = .enter k ∨ places st i = .recv k ∨ places st i = .returned k →
            log <+: k.said) := by
  have hok := ok_of_reaches hinput h
  have hserver := hok.server
  refine ⟨fun i k hpc => ?_, fun i hpc => ?_, fun hpc => ?_, ?_⟩
  · rcases hok.place i with hplace | hplace | ⟨k', hk', hanswered⟩ | ⟨held, log, hlink⟩
    · rw [hplace] at hpc
      simp at hpc
    · rw [hplace] at hpc
      simp at hpc
    · rw [hk'] at hpc
      obtain rfl : k' = k := by simpa using hpc
      exact hanswered
    · exact (hlink.answered hpc).1
  · rcases hok.place i with hplace | hplace | ⟨k, hk, -⟩ | ⟨held, log, hlink⟩
    · cases hplace.symm.trans hpc
    · cases hplace.symm.trans hpc
    · cases hk.symm.trans hpc
    · rw [hpc] at hlink
      exact hlink.2.2
  · rw [hpc] at hserver
    exact hserver
  · cases hsp : st.pc .server with
    | accept S | ask S | closed S | returned S =>
      rw [hsp] at hserver
      exact ⟨S.served, hserver.2.1.left, Or.inl ⟨rfl, hserver.2.1.printed⟩⟩
    | recv i S | send i S =>
      rw [hsp] at hserver
      obtain ⟨-, before, log, hs⟩ := hserver
      exact ⟨before, hs.left, Or.inr ⟨i, log, hs.served, hs.printed,
        fun k hpc => (hs.link.answered hpc).2⟩⟩
    | outOfBounds =>
      rw [hsp] at hserver
      exact hserver.elim

/-- The first client is served, and the second is answered. -/
def twoTurns : List (Party three × Event) :=
  [(.client first, .ok), (.server, .ok), (.client first, .ok), (.server, .ok), (.server, .ok),
    (.client first, .ok), (.client first, .ok), (.server, .ok), (.server, .ok),
    (.client second, .ok), (.server, .ok), (.client second, .ok), (.server, .ok), (.server, .ok)]

theorem served_in_turn_three : ∃ st, Reaches (step three) (fun _ _ => True) (init three) st ∧
    (st.pc .server).served = [first, second] ∧
    (st.pc .server).printed = [(first, ascii "hi"), (second, ascii "hi")] ∧
    (∃ k, places st first = .returned k ∧ k.said = [ascii "hi"] ∧ k.printed = [ascii "hi!"] ∧
      Answered first k) ∧
    ∃ before, (∀ i ∈ before, Left i (places st i)) ∧
      ((st.pc .server).served = before ∧ (st.pc .server).printed = transcript before ∨
        ∃ i log, (st.pc .server).served = before ++ [i] ∧
          (st.pc .server).printed = transcript before ++ log.map (fun s => (i, s)) ∧
          ∀ k, places st i = .enter k ∨ places st i = .recv k ∨ places st i = .returned k →
            log <+: k.said) := by
  have hrun : ((run (step three) twoTurns (init three)).map fun st =>
      (ServerPlace.served (st.pc .server), ServerPlace.printed (st.pc .server))) =
        some ([first, second], [(first, ascii "hi"), (second, ascii "hi")]) := by decide +kernel
  have hleft : ((run (step three) twoTurns (init three)).map fun st =>
      ClientPlace.talk (st.pc (.client first))) =
        some (some ([ascii "hi"], [ascii "hi!"])) := by decide +kernel
  obtain ⟨st, hst, heq⟩ := Option.map_eq_some_iff.mp hrun
  obtain ⟨hserved, hprinted⟩ := Prod.mk.inj heq
  rw [hst] at hleft
  have htalk : ClientPlace.talk (places st first) = _ := Option.some.inj hleft
  have hreach := reaches_of_run (fun _ _ _ => trivial) Reaches.start hst
  obtain ⟨hanswered, -, -, hturns⟩ := served_in_turn (by decide) hreach
  refine ⟨st, hreach, hserved, hprinted, ?_, hturns⟩
  cases hpc : places st first with
  | returned k =>
    rw [hpc] at htalk
    obtain ⟨hsaid, hgot⟩ := Prod.mk.inj (Option.some.inj htalk)
    exact ⟨k, rfl, hsaid, hgot, hanswered first k (Or.inr (Or.inr hpc))⟩
  | connect | enter k | recv k | refused | outOfBounds =>
    rw [hpc] at htalk
    cases htalk

/-- Nobody else is accepted in a step. -/
theorem served_eq {a : Party c × Event} (h : Ok st) (hstep : step c st a = some st')
    (hi : i ∈ (st.pc .server).served) (hopen : ¬ Ends (c.input i)) :
    (st'.pc .server).served = (st.pc .server).served := by
  rcases step_party hstep with ⟨op, hserver, -⟩ | ⟨-, -, -, -, -, hserver⟩
  · rcases h.of_served hi with hleft | ⟨-, S, before, log, ⟨hsp, hs⟩ | ⟨hsp, hs⟩⟩
    · exact absurd hleft.1 hopen
    · rw [hsp] at hserver ⊢
      cases he : a.2 with
      | fails =>
        rw [he] at hserver
        cases hserver
      | ok =>
        rw [he] at hserver
        obtain ⟨r, hr, heq⟩ := Option.map_eq_some_iff.mp hserver
        have hplace : heard i S r.1 = st'.pc .server := congrArg Prod.fst heq
        rw [← hplace]
        rcases @heard_step _ _ _ _ _ S r hs.link hr with ⟨hask, -⟩ | ⟨b, s, hsend, -⟩
        · rw [hask]
          rfl
        · rw [hsend]
          rfl
    · rw [hsp] at hserver ⊢
      cases he : a.2 with
      | fails =>
        rw [he] at hserver
        cases hserver
      | ok =>
        obtain ⟨b, hb, -⟩ := answer_step hs.link
        rw [he, server, hb] at hserver
        have hplace : ServerPlace.recv i { S with buffer := b } = st'.pc .server :=
          congrArg Prod.fst (Option.some.inj hserver)
        rw [← hplace]
        rfl
  · rw [hserver]

theorem Link.talks (h : Link c i m held log pc) (hsome : c.input i ≠ []) (hopen : ¬ Ends (c.input i)) :
    ∃ k, pc = .enter k ∨ pc = .recv k := by
  cases pc with
  | connect | refused => exact h.elim
  | enter k => exact ⟨k, Or.inl rfl⟩
  | recv k => exact ⟨k, Or.inr rfl⟩
  | returned k => exact absurd h.2.2.2.2 hopen
  | outOfBounds => exact absurd h.2.2 hsome

/-- **A client that does not close the conversation keeps the server for itself**, from where it is
    accepted on. It has something to say, for a client without any input leaves its buffer. -/
theorem never_released (hinput : ∀ i, NUL ∉ c.input i)
    (h : Reaches (step c) (fun _ _ => True) (init c) st) (hi : i ∈ (st.pc .server).served)
    (hsome : c.input i ≠ []) (hopen : ¬ Ends (c.input i))
    (hlater : Reaches (step c) (fun _ _ => True) st st') :
    (st'.pc .server).served = (st.pc .server).served ∧
      (∃ S, st'.pc .server = .recv i S ∨ st'.pc .server = .send i S) ∧
      ∃ k, places st' i = .enter k ∨ places st' i = .recv k := by
  have hkept : Ok st' ∧ (st'.pc .server).served = (st.pc .server).served := by
    refine @Reaches.invariant _ _ (step c) (fun _ _ => True) st st'
      (fun s => Ok s ∧ (s.pc .server).served = (st.pc .server).served)
      ⟨ok_of_reaches hinput h, rfl⟩ (fun s a s' hs _ hstep => ?_) hlater
    exact ⟨ok_step hinput hs.1 hstep, (served_eq hs.1 hstep (by rw [hs.2]; exact hi) hopen).trans hs.2⟩
  refine ⟨hkept.2, ?_⟩
  rcases hkept.1.of_served (by rw [hkept.2]; exact hi) with
    hleft | ⟨-, S, before, log, ⟨hsp, hs⟩ | ⟨hsp, hs⟩⟩
  · exact absurd hleft.1 hopen
  · exact ⟨⟨S, Or.inl hsp⟩, hs.link.talks hsome hopen⟩
  · exact ⟨⟨S, Or.inr hsp⟩, hs.link.talks hsome hopen⟩

/-- A client that says `hi` until somebody stops it, and one that would be brief. -/
def pair : Config :=
  ⟨2, fun i => if i.val = 0 then ascii "hi\n" else ascii "close\n", ascii "y"⟩

def talkative : Fin pair.clients := ⟨0, Nat.two_pos⟩

theorem never_released_pair :
    ∃ st, run (step pair) [(.client talkative, .ok), (.server, .ok)] (init pair) = some st ∧
      ∀ st', Reaches (step pair) (fun _ _ => True) st st' →
        (st'.pc .server).served = [talkative] ∧
          ∃ k, places st' talkative = .enter k ∨ places st' talkative = .recv k := by
  have hrun : ∃ st, run (step pair) [(.client talkative, .ok), (.server, .ok)] (init pair) = some st ∧
      (st.pc .server).served = [talkative] := ⟨_, rfl, rfl⟩
  obtain ⟨st, hst, hserved⟩ := hrun
  have hreach := reaches_of_run (fun _ _ _ => trivial) Reaches.start hst
  refine ⟨st, hst, fun st' hlater => ?_⟩
  obtain ⟨hkept, -, htalks⟩ :=
    never_released (by decide) hreach (i := talkative) (by rw [hserved]; simp) (by decide) (by decide)
      hlater
  exact ⟨hkept.trans hserved, htalks⟩

end TcpEcho
end Labs
