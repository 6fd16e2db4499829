import Labs.TcpEcho.Turns

/-!
# One client after another

`Inv` holds in every state of every run. The clients that were accepted are served in the order in
which they have connected; all of them but the last have left, after all that they had to say was
answered. A client in the queue may have sent its first text, which waits there; one that is not in
the queue has not connected. Each `y` on the standard input of the server has let in one client.

## The clients by where they stand

A client is in one of four groups: served and gone, being served, in the queue, or outside. `Inv`
has one clause for each group, and says that they do not overlap (`nodup`). A step moves one party,
so it keeps the clauses of the others as soon as it leaves their streams alone, which `Beside` says
of every step of a client, and of the server but for the client that it serves.

What the server has printed is determined by the two lists: all texts of those that have gone, and
the `log` of the one that is there. The order of acceptance is the order of the queue, so nothing
has to be remembered about the times at which the clients have connected.

The operator decides after each client whether there is to be another one. His answers are bytes
that are typed beforehand, and one of them is used for each client that is accepted; so at most one
client more is served than there are answers in front that say yes (`granted`). When he says no the
server closes its socket, and a client that waits in the queue finds its connection reset.
-/

namespace Labs
namespace TcpEcho

open Lib
open EchoServer (Buffer Client Closing Spoken Text strncat)

variable {c : Config} {i j : Fin c.clients} {m m' : Net c} {k : Client} {s s' : List UInt8}
  {pcs : Fin c.clients → ClientPlace} {pc pc' : ClientPlace} {sp sp' : ServerPlace c}

/-! ## 1. The answers of the operator -/

/-- The `y`s in front. -/
def granted (answers : List UInt8) : Nat := (answers.takeWhile fun a => a = 121).length

theorem head_drop_iff {n : Nat} {answers : List UInt8} (h : n ≤ granted answers) :
    (answers.drop n).head? = some 121 ↔ n < granted answers := by
  induction answers generalizing n with
  | nil => simp [granted]
  | cons a answers ih =>
    by_cases ha : a = 121
    · have hmore : granted (a :: answers) = granted answers + 1 := by simp [granted, ha]
      cases n with
      | zero =>
        rw [hmore]
        simp [ha]
      | succ n =>
        rw [hmore] at h ⊢
        rw [List.drop_succ_cons, ih (Nat.le_of_succ_le_succ h), Nat.succ_lt_succ_iff]
    · have hnone : granted (a :: answers) = 0 := by simp [granted, ha]
      rw [hnone] at h ⊢
      obtain rfl := Nat.le_zero.mp h
      simp [ha]

/-! ## 2. The invariant -/

/-- All that the client had to say was answered, and it has printed the answers. -/
def Left (i : Fin c.clients) (pc : ClientPlace) : Prop :=
  Ends (c.input i) ∧
    ∃ k, pc = .returned k ∧ k.said = texts (c.input i) ∧ k.printed = k.said.map bang

/-- What the server prints for clients that it has served. -/
def transcript (is : List (Fin c.clients)) : List (Fin c.clients × List UInt8) :=
  is.flatMap fun i => (texts (c.input i)).map fun s => (i, s)

def ServerPlace.served : ServerPlace c → List (Fin c.clients)
  | .accept s | .recv _ s | .send _ s | .ask s | .closed s | .returned s => s.served
  | .outOfBounds => []

/-- The clients that were accepted have left. -/
structure Served (pcs : Fin c.clients → ClientPlace) (S : Server c) : Prop where
  left : ∀ i ∈ S.served, Left i (pcs i)
  printed : S.printed = transcript S.served

/-- The last one that was accepted is there. -/
structure Serving (pcs : Fin c.clients → ClientPlace) (m : Net c) (i : Fin c.clients) (S : Server c)
    (held : Option Buffer) (before : List (Fin c.clients)) (log : List (List UInt8)) : Prop where
  served : S.served = before ++ [i]
  left : ∀ j ∈ before, Left j (pcs j)
  printed : S.printed = transcript before ++ log.map fun s => (i, s)
  link : Link c i m held log (pcs i)
  input : S.input = c.answers.drop before.length
  granted : before.length ≤ granted c.answers

def ServerInv (pcs : Fin c.clients → ClientPlace) (m : Net c) : ServerPlace c → Prop
  | .accept S => m.listening = true ∧ Served pcs S ∧ S.input = c.answers.drop S.served.length ∧
      S.served.length ≤ granted c.answers
  | .recv i S => m.listening = true ∧ ∃ before log, Serving pcs m i S none before log
  | .send i S => m.listening = true ∧ ∃ before log, Serving pcs m i S (some S.buffer) before log
  | .ask S => m.listening = true ∧ Served pcs S ∧ ∃ n, S.served.length = n + 1 ∧
      S.input = c.answers.drop n ∧ n ≤ granted c.answers
  | .closed S | .returned S => m.listening = false ∧ Served pcs S ∧
      S.served.length = granted c.answers + 1
  | .outOfBounds => False

/-- The connection of a client in the queue, which may have been reset. -/
def Waits (m : Net c) (i : Fin c.clients) (pc : ClientPlace) : Prop :=
  Link c i m none [] pc ∨ m.listening = false ∧
    ∃ k w, pc = .returned k ∧ Talks (c.input i) w k ∧ k.printed = []

structure Outside (m : Net c) (i : Fin c.clients) (pc : ClientPlace) : Prop where
  place : pc = .connect ∨ pc = .refused ∧ m.listening = false
  toServer : m.toServer i = Stream.idle
  toClient : m.toClient i = Stream.idle

structure Inv (c : Config) (pcs : Fin c.clients → ClientPlace) (m : Net c) (sp : ServerPlace c) :
    Prop where
  nodup : (sp.served ++ m.queue).Nodup
  outside : ∀ i, i ∉ sp.served → i ∉ m.queue → Outside m i (pcs i)
  queued : ∀ i ∈ m.queue, Waits m i (pcs i)
  server : ServerInv pcs m sp

/-- Where a client is that has been accepted. -/
theorem Inv.of_served (h : Inv c pcs m sp) (hi : i ∈ sp.served) :
    Left i (pcs i) ∨ m.listening = true ∧ ∃ S before log,
      (sp = .recv i S ∧ Serving pcs m i S none before log ∨
        sp = .send i S ∧ Serving pcs m i S (some S.buffer) before log) := by
  have hserver := h.server
  have hlast : ∀ {j : Fin c.clients} {S : Server c} {held before log},
      Serving pcs m j S held before log → i ∈ S.served → Left i (pcs i) ∨ i = j := by
    intro j S held before log hserving hmem
    rw [hserving.served, List.mem_append, List.mem_singleton] at hmem
    exact hmem.imp_left (hserving.left i)
  cases sp with
  | accept S | ask S | closed S | returned S => exact Or.inl (hserver.2.1.left i hi)
  | outOfBounds => exact hserver.elim
  | recv j S =>
    obtain ⟨hlistening, before, log, hserving⟩ := hserver
    refine (hlast hserving hi).imp_right fun hij => ?_
    subst hij
    exact ⟨hlistening, S, before, log, Or.inl ⟨rfl, hserving⟩⟩
  | send j S =>
    obtain ⟨hlistening, before, log, hserving⟩ := hserver
    refine (hlast hserving hi).imp_right fun hij => ?_
    subst hij
    exact ⟨hlistening, S, before, log, Or.inr ⟨rfl, hserving⟩⟩

/-! ## 3. The steps of a client -/

theorem Waits.congr (h : Waits m j pc) (htoServer : m'.toServer j = m.toServer j)
    (htoClient : m'.toClient j = m.toClient j) (hlistening : m.listening = false → m'.listening = false) :
    Waits m' j pc :=
  h.imp (fun hlink => hlink.congr htoServer htoClient) fun hreset => ⟨hlistening hreset.1, hreset.2⟩

theorem Outside.congr (h : Outside m j pc) (htoServer : m'.toServer j = m.toServer j)
    (htoClient : m'.toClient j = m.toClient j) (hlistening : m.listening = false → m'.listening = false) :
    Outside m' j pc :=
  ⟨h.place.imp_right fun hr => ⟨hr.1, hlistening hr.2⟩, htoServer.trans h.toServer,
    htoClient.trans h.toClient⟩

/-- A client that is not served by then does not show in what is known about the server. -/
theorem ServerInv.update (h : ServerInv pcs m sp) (hi : i ∉ sp.served) (pc : ClientPlace)
    (hlistening : m'.listening = m.listening)
    (hstreams : ∀ j ≠ i, m'.toServer j = m.toServer j ∧ m'.toClient j = m.toClient j) :
    ServerInv (Function.update pcs i pc) m' sp := by
  have hplace : ∀ {is : List (Fin c.clients)}, i ∉ is → (∀ j ∈ is, Left j (pcs j)) →
      ∀ j ∈ is, Left j (Function.update pcs i pc j) := by
    intro is hi hleft j hj
    have hne : j ≠ i := fun h => hi (h ▸ hj)
    rw [Function.update_of_ne hne]
    exact hleft j hj
  have hserved : ∀ {S : Server c}, i ∉ S.served → Served pcs S →
      Served (Function.update pcs i pc) S := fun hi hs => ⟨hplace hi hs.left, hs.printed⟩
  have hserving : ∀ {j : Fin c.clients} {S : Server c} {held before log}, i ∉ S.served →
      Serving pcs m j S held before log → Serving (Function.update pcs i pc) m' j S held before log := by
    intro j S held before log hi hs
    rw [hs.served, List.mem_append, List.mem_singleton, not_or] at hi
    have hj : j ≠ i := fun h => hi.2 h.symm
    refine ⟨hs.served, hplace hi.1 hs.left, hs.printed, ?_, hs.input, hs.granted⟩
    rw [Function.update_of_ne hj]
    exact hs.link.congr (hstreams j hj).1 (hstreams j hj).2
  cases sp with
  | accept S => exact ⟨hlistening.trans h.1, hserved hi h.2.1, h.2.2⟩
  | ask S => exact ⟨hlistening.trans h.1, hserved hi h.2.1, h.2.2⟩
  | closed S | returned S => exact ⟨hlistening.trans h.1, hserved hi h.2.1, h.2.2⟩
  | outOfBounds => exact h
  | recv j S | send j S =>
    obtain ⟨hl, before, log, hs⟩ := h
    exact ⟨hlistening.trans hl, before, log, hserving hi hs⟩

theorem not_served_of_queued (h : Inv c pcs m sp) (hi : i ∈ m.queue) : i ∉ sp.served :=
  fun hs => List.disjoint_of_nodup_append h.nodup hs hi

/-- A step of a client that is connected and changes neither the queue nor the socket. -/
theorem Inv.beside (h : Inv c pcs m sp) (hm : Beside i m m')
    (hqueued : i ∈ m.queue → Waits m' i pc') (hserver : ServerInv (Function.update pcs i pc') m' sp)
    (hin : i ∈ sp.served ∨ i ∈ m.queue) : Inv c (Function.update pcs i pc') m' sp := by
  refine ⟨?_, fun j hj hq => ?_, fun j hq => ?_, hserver⟩
  · rw [hm.queue]
    exact h.nodup
  · rw [hm.queue] at hq
    have hne : j ≠ i := fun hji => hin.elim (hji ▸ hj) (hji ▸ hq)
    rw [Function.update_of_ne hne]
    exact (h.outside j hj hq).congr (hm.others j hne).1 (hm.others j hne).2 hm.listening.trans
  · rw [hm.queue] at hq
    by_cases hne : j = i
    · subst hne
      rw [Function.update_self]
      exact hqueued hq
    · rw [Function.update_of_ne hne]
      exact (h.queued j hq).congr (hm.others j hne).1 (hm.others j hne).2 hm.listening.trans

theorem client_returned {e : Event} : client i (.returned k) m e = none := by
  cases e <;> rfl

theorem talks_start (i : Fin c.clients) :
    Talks (c.input i) 0 ⟨.zero _, c.input i, [], []⟩ :=
  ⟨⟨rfl, List.prefix_rfl, rfl⟩, fun h => absurd rfl h, by simp, rfl⟩

theorem text_zero : Text (.zero EchoServer.BUFFER_SIZE) [] :=
  ⟨List.not_mem_nil, List.replicate 1023 0, rfl⟩

theorem inv_client {e : Event} {op : SemOp Empty} (hinput : ∀ i, NUL ∉ c.input i)
    (h : Inv c pcs m sp) (hstep : client i (pcs i) m e = some (pc', m', op)) :
    Inv c (Function.update pcs i pc') m' sp := by
  by_cases hq : i ∈ m.queue
  · -- it is in the queue
    have hserved := not_served_of_queued h hq
    rcases h.queued i hq with hlink | ⟨-, k, -, hk, -⟩
    · obtain ⟨hnew, hm⟩ := client_step (hinput i) hlink hstep
      refine h.beside hm (fun _ => ?_) (h.server.update hserved pc' hm.listening hm.others) (Or.inr hq)
      refine hnew.imp_right fun hreset => ?_
      obtain ⟨⟨hlistening, -⟩, k, w, hk, htalks, hprinted⟩ := hreset
      exact ⟨hm.listening.trans hlistening, k, w, hk, htalks,
        List.length_eq_zero_iff.mp (Nat.le_zero.mp hprinted)⟩
    · rw [hk, client_returned] at hstep
      cases hstep
  · by_cases hserved : i ∈ sp.served
    · -- it is the one that is served
      rcases h.of_served hserved with ⟨-, k, hk, -⟩ | ⟨hlistening, S, before, log, hsp⟩
      · rw [hk, client_returned] at hstep
        cases hstep
      · have hserving : ∀ {held}, Serving pcs m i S held before log → Beside i m m' ∧
            Serving (Function.update pcs i pc') m' i S held before log := by
          intro held hs
          obtain ⟨hnew, hm⟩ := client_step (hinput i) hs.link hstep
          have hopen : ¬ m.IsReset i := by
            intro hreset
            exact absurd (hlistening.symm.trans hreset.1) (by decide)
          have hnot : i ∉ before := by
            intro hb
            have hnodup := h.nodup
            have hall : sp.served = before ++ [i] := by
              rcases hsp with ⟨rfl, -⟩ | ⟨rfl, -⟩ <;> exact hs.served
            rw [hall, List.append_assoc] at hnodup
            exact List.disjoint_of_nodup_append hnodup hb (by simp)
          refine ⟨hm, hs.served, fun j hj => ?_, hs.printed, ?_, hs.input, hs.granted⟩
          · have hji : j ≠ i := fun hji => hnot (hji ▸ hj)
            rw [Function.update_of_ne hji]
            exact hs.left j hj
          · rw [Function.update_self]
            exact hnew.resolve_right fun h => hopen h.1
        rcases hsp with ⟨rfl, hs⟩ | ⟨rfl, hs⟩
        all_goals
          obtain ⟨hm, hs'⟩ := hserving hs
          exact h.beside hm (fun hmem => absurd hmem hq)
            ⟨hm.listening.trans hlistening, before, log, hs'⟩ (Or.inl hserved)
    · -- it is about to connect
      have hout := h.outside i hserved hq
      rcases hout.place with hpc | ⟨hpc, -⟩
      · rw [hpc] at hstep
        cases e with
        | fails => cases hstep
        | ok =>
          rw [client] at hstep
          split at hstep
          · rename_i hclosed
            cases hstep
            refine ⟨h.nodup, fun j hj hjq => ?_, fun j hjq => ?_,
              h.server.update hserved _ rfl fun _ _ => ⟨rfl, rfl⟩⟩
            · by_cases hji : j = i
              · subst hji
                rw [Function.update_self]
                exact ⟨Or.inr ⟨rfl, by simpa using hclosed⟩, hout.toServer, hout.toClient⟩
              · rw [Function.update_of_ne hji]
                exact h.outside j hj hjq
            · have hji : j ≠ i := fun hji => hq (hji ▸ hjq)
              rw [Function.update_of_ne hji]
              exact h.queued j hjq
          · split at hstep
            · cases hstep
              refine ⟨?_, fun j hj hjq => ?_, fun j hjq => ?_,
                h.server.update hserved _ rfl fun _ _ => ⟨rfl, rfl⟩⟩
              · show (sp.served ++ (m.queue ++ [i])).Nodup
                rw [← List.append_assoc]
                refine List.Nodup.append h.nodup (List.nodup_singleton i) ?_
                simp [List.disjoint_singleton, hserved, hq]
              · have hji : j ≠ i ∧ j ∉ m.queue := by
                  simpa [not_or, and_comm] using hjq
                rw [Function.update_of_ne hji.1]
                exact (h.outside j hj hji.2).congr rfl rfl id
              · rcases List.mem_append.mp hjq with hold | hnew
                · have hji : j ≠ i := fun hji => hq (hji ▸ hold)
                  rw [Function.update_of_ne hji]
                  exact (h.queued j hold).congr rfl rfl id
                · obtain rfl := List.mem_singleton.mp hnew
                  rw [Function.update_self]
                  exact Or.inl ⟨⟨hout.toServer, hout.toClient, rfl⟩, rfl, talks_start j, text_zero⟩
            · cases hstep
      · rw [hpc] at hstep
        cases e <;> cases hstep

/-! ## 4. The steps of the server -/

theorem left_of_link {held : Option Buffer} {log : List (List UInt8)} (hk : pc = .returned k)
    (h : Link c i m held log pc) : Left i pc ∧ texts (c.input i) = log := by
  subst hk
  obtain ⟨-, hlog, htalks, htexts, hends⟩ := h
  refine ⟨⟨hends, k, rfl, htexts.symm, ?_⟩, htexts.trans hlog.symm⟩
  have hlen := htalks.spoken.length_said
  have hechoed := htalks.echoed
  rwa [List.take_of_length_le (by omega)] at hechoed

theorem transcript_append (is : List (Fin c.clients)) (i : Fin c.clients) :
    transcript (is ++ [i]) = transcript is ++ (texts (c.input i)).map fun s => (i, s) := by
  simp [transcript]

/-- Where the streams of one client change only, and nothing but these. -/
theorem Inv.serve (h : Inv c pcs m sp) (hm : Beside i m m') (hi : i ∈ sp.served)
    (hsp : sp'.served = sp.served) (hserver : ServerInv pcs m' sp') : Inv c pcs m' sp' := by
  refine ⟨?_, fun j hj hq => ?_, fun j hq => ?_, hserver⟩
  · rw [hsp, hm.queue]
    exact h.nodup
  · rw [hsp] at hj
    rw [hm.queue] at hq
    have hne : j ≠ i := fun hji => hj (hji ▸ hi)
    exact (h.outside j hj hq).congr (hm.others j hne).1 (hm.others j hne).2 hm.listening.trans
  · rw [hm.queue] at hq
    have hne : j ≠ i := fun hji => not_served_of_queued h hq (hji ▸ hi)
    exact (h.queued j hq).congr (hm.others j hne).1 (hm.others j hne).2 hm.listening.trans

theorem inv_server {e : Event} {op : SemOp Empty} (h : Inv c pcs m sp)
    (hstep : server sp m e = some (sp', m', op)) : Inv c pcs m' sp' := by
  have hserver := h.server
  cases e with
  | fails => cases sp <;> cases hstep
  | ok =>
    cases sp with
    | returned S => cases hstep
    | outOfBounds => cases hstep
    | accept S =>
      obtain ⟨hlistening, hserved, hinput, hgranted⟩ := hserver
      rw [server] at hstep
      cases hqueue : m.queue with
      | nil =>
        rw [hqueue] at hstep
        cases hstep
      | cons i queue =>
        rw [hqueue] at hstep
        cases hstep
        have hnodup := h.nodup
        rw [hqueue] at hnodup
        have hlink : Link c i m none [] (pcs i) := by
          refine (h.queued i (by rw [hqueue]; simp)).resolve_right fun hreset => ?_
          rw [hlistening] at hreset
          cases hreset.1
        refine ⟨?_, fun j hj hq => ?_, fun j hq => ?_, hlistening, S.served, [], ?_⟩
        · show ((S.served ++ [i]) ++ queue).Nodup
          rw [List.append_assoc]
          exact hnodup
        · change j ∉ S.served ++ [i] at hj
          rw [List.mem_append, List.mem_singleton, not_or] at hj
          refine (h.outside j hj.1 ?_).congr rfl rfl id
          rw [hqueue, List.mem_cons, not_or]
          exact ⟨hj.2, hq⟩
        · refine (h.queued j ?_).congr rfl rfl id
          rw [hqueue]
          exact List.mem_cons_of_mem i hq
        · exact ⟨rfl, hserved.left, by rw [hserved.printed]; simp, hlink.congr rfl rfl, hinput, hgranted⟩
    | recv i S =>
      obtain ⟨hlistening, before, log, hs⟩ := hserver
      obtain ⟨r, hr, heq⟩ := Option.map_eq_some_iff.mp hstep
      cases heq
      have hi : i ∈ S.served := by simp [hs.served]
      have hm := beside_setToServer m i r.2
      rcases @heard_step _ _ _ _ _ S r hs.link hr with
        ⟨hask, -, hlink, k, hk⟩ | ⟨b, s, hsend, -, -, hlink⟩
      · rw [hask]
        refine h.serve hm hi rfl ⟨hlistening, ⟨fun j hj => ?_, ?_⟩, before.length, ?_, hs.input, hs.granted⟩
        · rw [hs.served, List.mem_append, List.mem_singleton] at hj
          rcases hj with hj | rfl
          · exact hs.left j hj
          · exact (left_of_link hk hlink).1
        · rw [hs.printed, hs.served, transcript_append, (left_of_link hk hlink).2]
        · rw [hs.served, List.length_append, List.length_singleton]
      · rw [hsend]
        refine h.serve hm hi rfl ⟨hlistening, before, log ++ [s], hs.served, hs.left, ?_, hlink, hs.input,
          hs.granted⟩
        show S.printed ++ [(i, s)] = _
        rw [hs.printed]
        simp
    | send i S =>
      obtain ⟨hlistening, before, log, hs⟩ := hserver
      obtain ⟨b, hb, hlink, -⟩ := answer_step hs.link
      rw [server, hb] at hstep
      cases hstep
      exact h.serve (beside_setToClient m i _) (by simp [ServerPlace.served, hs.served]) rfl
        ⟨hlistening, before, log, hs.served, hs.left, hs.printed, hlink, hs.input, hs.granted⟩
    | ask S =>
      obtain ⟨hlistening, hserved, n, hn, hinput, hgranted⟩ := hserver
      have hhead := head_drop_iff hgranted
      rw [← hinput] at hhead
      have hrest : S.input.tail = c.answers.drop (n + 1) := by
        rw [hinput, List.tail_drop]
      rw [server] at hstep
      split at hstep
      · rename_i hyes
        cases hstep
        refine ⟨h.nodup, h.outside, h.queued, hlistening, ⟨hserved.left, hserved.printed⟩, ?_, ?_⟩
        · show S.input.tail = c.answers.drop S.served.length
          rw [hn, hrest]
        · show S.served.length ≤ _
          rw [hn]
          exact hhead.mp hyes
      · rename_i hno
        cases hstep
        refine ⟨h.nodup, fun j hj hq => (h.outside j hj hq).congr rfl rfl fun _ => rfl,
          fun j hq => (h.queued j hq).congr rfl rfl fun _ => rfl, rfl,
          ⟨hserved.left, hserved.printed⟩, ?_⟩
        show S.served.length = _
        rw [hn]
        have := mt hhead.mpr hno
        omega
    | closed S =>
      cases hstep
      exact ⟨h.nodup, h.outside, h.queued, h.server⟩

end TcpEcho
end Labs
