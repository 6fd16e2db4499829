import Labs.SharedMessage.Reading

/-!
# What comes out of it

With one message to send, what the server prints is a prefix of it that is not empty, and any such
prefix can come out: the server gets to the first byte as soon as it is there, and stops at the
first one that is not (`prints_iff`).

With `shm_open` a message that a client has sent wakes the server up. With `shmget` the segment can
be found before the server has cleared it, so what a client has sent can get lost (`lost_iff`).

## Runs as situations

What *can* be printed is a statement that runs exist, for every message and every length of what is
read of it. To write such runs down, the server and one client are followed alone: a `Situation` has
their two places and the memory, and says nothing of the other clients, which do not move. `Leads`
composes, so a run is put together from the copying of some bytes (`leads_copy`), the clearing
(`leads_clear`) and the printing (`leads_print`), each an induction over bytes.

What *cannot* be printed comes from `Reading`: what is printed consists of bytes of the message in
their places, and with one message to send this is a prefix of it (`Printed.eq_take`).

## Losing a message

`Lost` is a property of the system, not of a run: from this state on, the server does not come to
its end by itself, however it moves. For `shm_open` the opposite is proved by a measure on the
places of the server (`ServerPlace.left`). For `shmget` it is an invariant that the server sees
nothing in the segment (`ServerPlace.Deaf`); and there is a run that leads to it (`exists_lost`).
-/

namespace Labs
namespace SharedMessage

open Lib

variable {c : Config} {m m' : Shared} {s s' : State c} {i : Fin c.clients}
  {allowed : State c → Party c × Event → Prop}

/-! ## 1. Runs of the server and one client -/

/-- Where the server and the client are, and the memory. -/
structure Situation where
  server : ServerPlace
  client : ClientPlace
  mem : Shared

structure At (i : Fin c.clients) (x : Situation) (s : State c) : Prop where
  server : s.pc .server = x.server
  client : s.pc (.client i) = x.client
  mem : s.mem = x.mem

/-- From the one situation to the other. -/
def Leads (c : Config) (i : Fin c.clients) (x y : Situation) : Prop :=
  ∀ s : State c, At i x s → ∃ s', Reaches (step c) (fun _ _ => True) s s' ∧ At i y s'

theorem Leads.refl (x : Situation) : Leads c i x x := fun s h => ⟨s, .start, h⟩

theorem Leads.trans {x y z : Situation} (h : Leads c i x y) (h' : Leads c i y z) :
    Leads c i x z := by
  intro s hs
  obtain ⟨s₁, hreach₁, hs₁⟩ := h s hs
  obtain ⟨s₂, hreach₂, hs₂⟩ := h' s₁ hs₁
  exact ⟨s₂, hreach₁.trans hreach₂, hs₂⟩

theorem leads_server {pc pc' : ServerPlace} {at_client : ClientPlace} (e : Event)
    (h : server c pc m e = some (pc', m', .skip)) :
    Leads c i ⟨pc, at_client, m⟩ ⟨pc', at_client, m'⟩ := by
  intro s ⟨hserver, hclient, hmem⟩
  change s.pc .server = pc at hserver
  change s.mem = m at hmem
  rw [← hmem, ← hserver] at h
  obtain ⟨s', hstep, hpc, hothers, hm⟩ :=
    @Sys.exists_step _ _ _ _ _ _ _ (program c) s .server e pc' _ h
  exact ⟨s', .next .start trivial hstep, hpc, (hothers (.client i) nofun).trans hclient, hm⟩

theorem leads_client {pc pc' : ClientPlace} {at_server : ServerPlace} (e : Event)
    (h : client c i pc m e = some (pc', m', .skip)) :
    Leads c i ⟨at_server, pc, m⟩ ⟨at_server, pc', m'⟩ := by
  intro s ⟨hserver, hclient, hmem⟩
  change s.pc (.client i) = pc at hclient
  change s.mem = m at hmem
  rw [← hmem, ← hclient] at h
  obtain ⟨s', hstep, hpc, hothers, hm⟩ :=
    @Sys.exists_step _ _ _ _ _ _ _ (program c) s (.client i) e pc' _ h
  exact ⟨s', .next .start trivial hstep, (hothers .server nofun).trans hserver, hpc, hm⟩

/-- The first `k` bytes have been copied. -/
def filled (msg : List UInt8) (k : Nat) (m : Shared) : Shared :=
  { m with bytes := fun j => if j < k then msg.getD j NUL else m.bytes j }

theorem filled_zero (msg : List UInt8) (m : Shared) : filled msg 0 m = m := by
  simp [filled]

theorem filled_succ (msg : List UInt8) (k : Nat) (m : Shared) :
    (filled msg k m).setByte k (msg.getD k NUL) = filled msg (k + 1) m := by
  simp only [filled, Shared.setByte, Shared.mk.injEq, true_and, and_true]
  funext j
  by_cases hj : j = k
  · subst hj
    simp
  · rw [Function.update_of_ne hj]
    by_cases hlt : j < k
    · rw [if_pos hlt, if_pos (by omega)]
    · rw [if_neg hlt, if_neg (by omega)]

theorem leads_copy {msg : List UInt8} {k : Nat} {at_server : ServerPlace}
    (hk : k ≤ msg.length + 1) (hsize : m.size = some (c.memsegSize + 1))
    (hlen : msg.length ≤ c.memsegSize) :
    Leads c i ⟨at_server, .copy msg ∅, m⟩
      ⟨at_server, .copy msg (Finset.range k), filled msg k m⟩ := by
  induction k with
  | zero =>
    rw [filled_zero, Finset.range_zero]
    exact .refl _
  | succ k ih =>
    apply (ih (by omega)).trans
    apply leads_client (.byte k)
    have hin : ¬ (filled msg k m).size.getD 0 ≤ k := by
      show ¬ m.size.getD 0 ≤ k
      rw [hsize]
      exact Nat.not_le.mpr (by show k < c.memsegSize + 1; omega)
    have hk' : k ≤ msg.length ∧ k ∉ Finset.range k := ⟨by omega, Finset.notMem_range_self⟩
    simp only [client, if_pos hk', if_neg hin, filled_succ, Finset.range_add_one]

/-- A client that finds the segment gets its message ready. -/
theorem leads_to_copy {msg : List UInt8} {at_server : ServerPlace} (hsends : c.sends i = some msg)
    (hlinked : m.linked = true) (hsize : m.size = some (c.memsegSize + 1)) :
    Leads c i ⟨at_server, .find, m⟩ ⟨at_server, .copy msg ∅, m⟩ := by
  have hread : message (m.size.getD 0) (c.input i) = .ok msg := by
    rw [hsize]
    exact sends_spec hsends
  have hfind : Leads c i ⟨at_server, .find, m⟩ ⟨at_server, .stat, m⟩ :=
    leads_client .ok (by simp [client, hlinked])
  have hstat : Leads c i ⟨at_server, .stat, m⟩ ⟨at_server, .read (m.size.getD 0), m⟩ :=
    leads_client .ok (by simp [client, hlinked])
  have hmessage : Leads c i ⟨at_server, .read (m.size.getD 0), m⟩ ⟨at_server, .attach msg, m⟩ :=
    leads_client .ok (by simp [client, hread])
  have hattach : Leads c i ⟨at_server, .attach msg, m⟩ ⟨at_server, .copy msg ∅, m⟩ :=
    leads_client .ok (by simp [client, hlinked])
  exact ((hfind.trans hstat).trans hmessage).trans hattach

/-- The first `k` bytes have been cleared. -/
def cleared (k : Nat) (m : Shared) : Shared :=
  { m with bytes := fun j => if j < k then 0 else m.bytes j }

theorem cleared_succ (k : Nat) (m : Shared) : (cleared k m).setByte k 0 = cleared (k + 1) m := by
  simp only [cleared, Shared.setByte, Shared.mk.injEq, true_and, and_true]
  funext j
  by_cases hj : j = k
  · subst hj
    simp
  · rw [Function.update_of_ne hj]
    by_cases hlt : j < k
    · rw [if_pos hlt, if_pos (by omega)]
    · rw [if_neg hlt, if_neg (by omega)]

theorem leads_clear {k : Nat} {at_client : ClientPlace} (hk : k ≤ c.memsegSize + 1) :
    Leads c i ⟨.clear ∅, at_client, m⟩ ⟨.clear (Finset.range k), at_client, cleared k m⟩ := by
  induction k with
  | zero =>
    have h0 : cleared 0 m = m := by simp [cleared]
    rw [h0, Finset.range_zero]
    exact .refl _
  | succ k ih =>
    apply (ih (by omega)).trans
    apply leads_server (.byte k)
    have hk' : k ≤ c.memsegSize ∧ k ∉ Finset.range k := ⟨by omega, Finset.notMem_range_self⟩
    simp only [server, if_pos hk', cleared_succ, Finset.range_add_one]

/-- The segment as the server first polls it. -/
structure Fresh (c : Config) (m : Shared) : Prop where
  linked : m.linked = true
  size : m.size = some (c.memsegSize + 1)
  bytes : ∀ j ≤ c.memsegSize, m.bytes j = 0
  printed : m.printed = []

theorem at_init (c : Config) (i : Fin c.clients) : At i ⟨.create, .find, (init c).mem⟩ (init c) :=
  ⟨rfl, rfl, rfl⟩

/-- The server of `shmget` gets to the segment, which it has not cleared yet. -/
theorem leads_to_clear (i : Fin c.clients) (hv : c.version = .systemV) :
    ∃ bytes, Leads c i ⟨.create, .find, (init c).mem⟩
      ⟨.clear ∅, .find, ⟨true, some (c.memsegSize + 1), bytes, []⟩⟩ := by
  obtain ⟨bytes, hcreate⟩ : ∃ bytes, Leads c i ⟨.create, .find, (init c).mem⟩
      ⟨.attach, .find, ⟨true, some (c.memsegSize + 1), bytes, []⟩⟩ := by
    cases hc : c.old with
    | none => exact ⟨fun _ => 0, leads_server .ok (by simp [server, create, init, hv, hc])⟩
    | some bytes => exact ⟨bytes, leads_server .ok (by simp [server, create, init, hv, hc])⟩
  have hattach : Leads c i ⟨.attach, .find, ⟨true, some (c.memsegSize + 1), bytes, []⟩⟩
      ⟨.clear ∅, .find, ⟨true, some (c.memsegSize + 1), bytes, []⟩⟩ :=
    leads_server .ok (by simp [server, hv])
  exact ⟨bytes, hcreate.trans hattach⟩

theorem leads_to_poll (i : Fin c.clients) (hold : c.version = .systemV ∨ c.old = none) :
    ∃ m, Fresh c m ∧ Leads c i ⟨.create, .find, (init c).mem⟩ ⟨.poll, .find, m⟩ := by
  cases hv : c.version with
  | posix =>
    have hnone : c.old = none := hold.resolve_left fun h => absurd (hv.symm.trans h) nofun
    have hmem : (init c).mem = ⟨false, none, fun _ => 0, []⟩ := by simp [init, hnone]
    rw [hmem]
    have hcreate : Leads c i ⟨.create, .find, ⟨false, none, fun _ => 0, []⟩⟩
        ⟨.resize, .find, ⟨true, some 0, fun _ => 0, []⟩⟩ :=
      leads_server .ok (by simp [server, create, hv])
    have hresize : Leads c i ⟨.resize, .find, ⟨true, some 0, fun _ => 0, []⟩⟩
        ⟨.attach, .find, ⟨true, some (c.memsegSize + 1), fun _ => 0, []⟩⟩ :=
      leads_server .ok rfl
    have hattach : Leads c i ⟨.attach, .find, ⟨true, some (c.memsegSize + 1), fun _ => 0, []⟩⟩
        ⟨.poll, .find, ⟨true, some (c.memsegSize + 1), fun _ => 0, []⟩⟩ :=
      leads_server .ok (by simp [server, hv])
    exact ⟨_, ⟨rfl, rfl, fun _ _ => rfl, rfl⟩, (hcreate.trans hresize).trans hattach⟩
  | systemV =>
    obtain ⟨bytes, hclear⟩ := leads_to_clear i hv
    have hpoll : Leads c i ⟨.clear (Finset.range (c.memsegSize + 1)), .find,
          cleared (c.memsegSize + 1) ⟨true, some (c.memsegSize + 1), bytes, []⟩⟩
        ⟨.poll, .find, cleared (c.memsegSize + 1) ⟨true, some (c.memsegSize + 1), bytes, []⟩⟩ :=
      leads_server .ok (by simp [server])
    refine ⟨_, ⟨rfl, rfl, fun j hj => ?_, rfl⟩,
      (hclear.trans (leads_clear (le_refl _))).trans hpoll⟩
    show (if j < c.memsegSize + 1 then 0 else bytes j) = 0
    exact if_pos (Nat.lt_succ_of_le hj)

/-- While the client waits, the server prints what is there. -/
theorem leads_print {at_client : ClientPlace} {msg : List UInt8} {k : Nat} (hk : k ≤ msg.length)
    (hlen : msg.length ≤ c.memsegSize) (hnul : NUL ∉ msg) (hfresh : Fresh c m) :
    Leads c i ⟨.print 0, at_client, filled msg k m⟩
      ⟨.print k, at_client, { filled msg k m with printed := msg.take k }⟩ := by
  have hpart : ∀ j ≤ k, Leads c i ⟨.print 0, at_client, filled msg k m⟩
      ⟨.print j, at_client, { filled msg k m with printed := msg.take j }⟩ := by
    intro j hj
    induction j with
    | zero =>
      have h0 : { filled msg k m with printed := msg.take 0 } = filled msg k m := by
        simp [filled, hfresh.printed]
      rw [h0]
      exact .refl _
    | succ j ih =>
      apply (ih (by omega)).trans
      have hj' : j < msg.length := by omega
      have hbyte : msg.getD j NUL = msg[j] := by simp [List.getD, hj']
      have hne : msg[j] ≠ 0 := by
        intro h0
        apply hnul
        rw [NUL, ← h0]
        exact List.getElem_mem hj'
      have hin : ¬ m.size.getD 0 ≤ j := by
        rw [hfresh.size]
        exact Nat.not_le.mpr (by show j < c.memsegSize + 1; omega)
      have htake : msg.take (j + 1) = msg.take j ++ [msg[j]] := by
        rw [List.take_add_one, List.getElem?_eq_getElem hj', Option.toList_some]
      have hbyte' : (filled msg k m).bytes j = msg[j] := by
        show (if j < k then msg.getD j NUL else m.bytes j) = _
        rw [if_pos (by omega), hbyte]
      apply leads_server .ok
      show (if m.size.getD 0 ≤ j then _ else if (filled msg k m).bytes j = 0 then _ else
        some (ServerPlace.print (j + 1), { filled msg k m with
          printed := msg.take j ++ [(filled msg k m).bytes j] }, SemOp.skip)) = _
      rw [if_neg hin, hbyte', if_neg hne, htake]
  exact hpart k (le_refl k)

/-! ## 2. What can be printed -/

/-- The server can leave with success when it has printed `out`. -/
def Prints (c : Config) (out : List UInt8) : Prop :=
  ∃ s, Reaches (step c) (fun _ _ => True) (init c) s ∧
    s.pc .server = ServerPlace.returned EXIT_SUCCESS ∧ s.mem.printed = out

/-- The clients that send anything send `msg`. -/
def OneMessage (c : Config) (msg : List UInt8) : Prop :=
  (∃ i, c.sends i = some msg) ∧ ∀ i msg', c.sends i = some msg' → msg' = msg

theorem Printed.eq_take {msg : List UInt8} (h : Printed c m) (hone : OneMessage c msg) :
    m.printed <+: msg := by
  rw [List.prefix_iff_getElem?]
  intro j hj
  obtain ⟨i, msg', hsends, hb⟩ := h.2 j _ (List.getElem?_eq_getElem hj)
  rw [hone.2 i msg' hsends] at hb
  exact hb

theorem prints_take {msg : List UInt8} {k : Nat} (hold : c.version = .systemV ∨ c.old = none)
    (hsends : c.sends i = some msg) (hpos : 0 < k) (hk : k ≤ msg.length) :
    Prints c (msg.take k) := by
  have hlen := length_le hsends
  obtain ⟨hnul, hne, -⟩ := message_ok (sends_spec hsends)
  obtain ⟨m, hfresh, hpoll⟩ := leads_to_poll i hold
  -- the client gets `k` bytes done
  have hcopy : Leads c i ⟨.poll, .find, m⟩ ⟨.poll, .copy msg (Finset.range k), filled msg k m⟩ :=
    (leads_to_copy hsends hfresh.linked hfresh.size).trans
      (leads_copy (by omega) hfresh.size hlen)
  -- which wakes the server up
  have hwake : Leads c i ⟨.poll, .copy msg (Finset.range k), filled msg k m⟩
      ⟨.terminate, .copy msg (Finset.range k), filled msg k m⟩ := by
    apply leads_server .ok
    have hfirst : (filled msg k m).bytes 0 ≠ 0 := by
      show (if 0 < k then msg.getD 0 NUL else m.bytes 0) ≠ 0
      rw [if_pos hpos]
      exact first_copied hsends
    simp [server, hfirst]
  have hterminate : Leads c i ⟨.terminate, .copy msg (Finset.range k), filled msg k m⟩
      ⟨.print 0, .copy msg (Finset.range k), filled msg k m⟩ := by
    apply leads_server .ok
    have hlast : (filled msg k m).setByte c.memsegSize 0 = filled msg k m := by
      have hzero : (filled msg k m).bytes c.memsegSize = 0 := by
        show (if c.memsegSize < k then msg.getD c.memsegSize NUL else m.bytes c.memsegSize) = 0
        rw [if_neg (by omega)]
        exact hfresh.bytes _ (le_refl _)
      rw [Shared.setByte, ← hzero, Function.update_eq_self]
    simp [server, hlast]
  have hstop : Leads c i
      ⟨.print k, .copy msg (Finset.range k), { filled msg k m with printed := msg.take k }⟩
      ⟨.detach, .copy msg (Finset.range k), { filled msg k m with printed := msg.take k }⟩ := by
    apply leads_server .ok
    have hend : (filled msg k m).bytes k = 0 := by
      show (if k < k then msg.getD k NUL else m.bytes k) = 0
      rw [if_neg (lt_irrefl k)]
      exact hfresh.bytes k (by omega)
    have hin : ¬ m.size.getD 0 ≤ k := by
      rw [hfresh.size]
      exact Nat.not_le.mpr (by show k < c.memsegSize + 1; omega)
    show (if m.size.getD 0 ≤ k then _ else if (filled msg k m).bytes k = 0 then
      some (ServerPlace.detach, _, SemOp.skip) else _) = _
    rw [if_neg hin, if_pos hend]
  have hdetach : Leads c i
      ⟨.detach, .copy msg (Finset.range k), { filled msg k m with printed := msg.take k }⟩
      ⟨.remove, .copy msg (Finset.range k), { filled msg k m with printed := msg.take k }⟩ :=
    leads_server .ok rfl
  have hremove : Leads c i
      ⟨.remove, .copy msg (Finset.range k), { filled msg k m with printed := msg.take k }⟩
      ⟨.returned EXIT_SUCCESS, .copy msg (Finset.range k),
        { filled msg k m with printed := msg.take k, linked := false }⟩ :=
    leads_server .ok rfl
  have hall := ((((((hpoll.trans hcopy).trans hwake).trans hterminate).trans
    (leads_print hk hlen hnul hfresh)).trans hstop).trans hdetach).trans hremove
  obtain ⟨s, hreach, hserver, -, hmem⟩ := hall (init c) (at_init c i)
  exact ⟨s, hreach, hserver, by rw [hmem]⟩

/-- **What can be printed** are just the prefixes of the message that are not empty. -/
theorem prints_iff {msg out : List UInt8} (hold : c.version = .systemV ∨ c.old = none)
    (hone : OneMessage c msg) : Prints c out ↔ out ≠ [] ∧ out <+: msg := by
  constructor
  · rintro ⟨s, hreach, hpc, rfl⟩
    have hinv := inv_of_reaches hreach
    have hk := hinv.knows .server
    rw [hpc] at hk
    exact ⟨hk.1 rfl, hinv.printed.eq_take hone⟩
  · rintro ⟨hne, hprefix⟩
    obtain ⟨i, hsends⟩ := hone.1
    rw [List.prefix_iff_eq_take.mp hprefix]
    exact prints_take hold hsends (List.length_pos_iff.mpr hne) hprefix.length_le

theorem oneMessage_greeting (v : Version) : OneMessage (greeting v) (ascii "hi") :=
  ⟨⟨writer v, sends_greeting v _⟩, fun i _ h => Option.some.inj (h.symm.trans (sends_greeting v i))⟩

theorem prints_iff_greeting : Prints (greeting .posix) (ascii "h") ∧
    Prints (greeting .systemV) (ascii "hi") ∧ ¬ Prints (greeting .systemV) (ascii "i") := by
  refine ⟨?_, ?_, ?_⟩
  · rw [prints_iff (.inr rfl) (oneMessage_greeting .posix)]
    decide
  · rw [prints_iff (.inl rfl) (oneMessage_greeting .systemV)]
    decide
  · rw [prints_iff (.inl rfl) (oneMessage_greeting .systemV)]
    decide

/-! ## 3. Whether a message can get lost -/

/-- The server moves, and none of its calls fails. -/
def ServerAlone (_ : State c) (a : Party c × Event) : Prop := a.1 = .server ∧ a.2 ≠ .fail

/-- A client has sent its message, and has left with success. -/
def Sent (s : State c) : Prop :=
  ∃ i, s.pc (.client i) = ClientPlace.returned EXIT_SUCCESS ∧ c.sends i ≠ none

def ServerReturned (s : State c) : Prop := ∃ status, s.pc .server = ServerPlace.returned status

/-- A message has been sent, and the server, which is left to itself, never comes to an end. -/
def Lost (s : State c) : Prop :=
  Sent s ∧ ∀ s', Reaches (step c) ServerAlone s s' → ¬ ServerReturned s'

/-- How many steps the server has before it at most, once it has been woken up. -/
def ServerPlace.left (c : Config) : ServerPlace → Nat
  | .create => c.memsegSize + 8
  | .resize => c.memsegSize + 7
  | .attach => c.memsegSize + 6
  | .clear _ => 0
  | .poll => c.memsegSize + 5
  | .terminate => c.memsegSize + 4
  | .print j => c.memsegSize - j + 3
  | .detach => 2
  | .remove => 1
  | .returned _ => 0
  | .outOfBounds => 0

/-- The segment has been found, and there is something in it. -/
def Woken (m : Shared) : Prop := m.size ≠ none ∧ m.bytes 0 ≠ 0

theorem server_moves {pc : ServerPlace} (hv : c.version = .posix) (hk : pc.Knows c m)
    (hwoken : Woken m) (hun : ∀ status, pc ≠ .returned status) :
    ∃ pc' m', server c pc m .ok = some (pc', m', .skip) ∧ pc'.left c < pc.left c := by
  cases pc with
  | create =>
    have hl : m.linked = true := hk.2.1 hwoken.1
    refine ⟨.returned EXIT_FAILURE, m, by simp [server, create, hv, hl], Nat.succ_pos _⟩
  | resize => exact ⟨_, _, rfl, Nat.lt_succ_self _⟩
  | attach => exact ⟨.poll, m, by simp [server, hv], Nat.lt_succ_self _⟩
  | clear done => exact absurd hv hk.2.2.1
  | poll => exact ⟨.terminate, m, by simp [server, hwoken.2], Nat.lt_succ_self _⟩
  | terminate => exact ⟨_, _, rfl, Nat.lt_succ_self _⟩
  | print j =>
    obtain ⟨hlen, hprinted, hclean, -⟩ := hk
    have hj : j ≤ c.memsegSize := hlen ▸ hprinted.1
    have hin : ¬ m.size.getD 0 ≤ j := by
      rw [hclean.size]
      exact Nat.not_le.mpr (Nat.lt_succ_of_le hj)
    by_cases hb : m.bytes j = 0
    · exact ⟨.detach, m, by simp [server, hin, hb], by show 2 < _ + 3; omega⟩
    · refine ⟨.print (j + 1), { m with printed := m.printed ++ [m.bytes j] },
        by simp [server, hin, hb], ?_⟩
      -- the last byte is a zero
      have hlt : j ≠ c.memsegSize := by
        intro heq
        apply hb
        rw [heq]
        exact allowed_last (hclean.bytes _ (le_refl _))
      show c.memsegSize - (j + 1) + 3 < c.memsegSize - j + 3
      omega
  | detach => exact ⟨_, _, rfl, Nat.lt_succ_self _⟩
  | remove => exact ⟨_, _, rfl, Nat.lt_succ_self _⟩
  | returned status => exact absurd rfl (hun status)
  | outOfBounds => exact absurd hk id

/-- **With `shm_open` nothing gets lost**: once a message has been sent, the server gets to its
    end. -/
theorem exists_returned_of_sent (hv : c.version = .posix)
    (h : Reaches (step c) (fun _ _ => True) (init c) s) (hsent : Sent s) :
    ∃ s', Reaches (step c) ServerAlone s s' ∧ ServerReturned s' := by
  have hinv := inv_of_reaches h
  have hwoken : Woken s.mem := by
    obtain ⟨i, hpc, hsends⟩ := hsent
    have hk := hinv.knows (.client i)
    rw [hpc] at hk
    obtain ⟨hfound, hfirst⟩ := hk rfl hsends
    exact ⟨hfound, hfirst hv⟩
  obtain ⟨s', hreach, -, hgoal⟩ := @exists_reaches_of_measure _ _ (step c)
    ServerAlone (fun s => Inv s ∧ Woken s.mem) ServerReturned
    (fun s => ServerPlace.left c (s.pc .server))
    (fun s ⟨hinv, hwoken⟩ hun => by
      have hk : ServerPlace.Knows c (s.pc .server) s.mem := hinv.knows .server
      obtain ⟨pc, m, hnext, hless⟩ := server_moves hv hk hwoken fun status hpc => hun ⟨status, hpc⟩
      obtain ⟨s', hstep, hpc, -, hmem⟩ :=
        @Sys.exists_step _ _ _ _ _ _ _ (program c) s .server .ok pc m hnext
      have hleaves := server_leaves hk hnext
      refine ⟨_, s', ⟨rfl, by simp⟩, hstep, ⟨hinv.step hstep, ?_⟩, ?_⟩
      · rw [hmem]
        exact ⟨hleaves.found hwoken.1, hleaves.first hv hwoken.1 hwoken.2⟩
      · show ServerPlace.left c (s'.pc .server) < _
        rw [hpc]
        exact hless)
    s ⟨hinv, hwoken⟩
  exact ⟨s', hreach, hgoal⟩

/-- The server is about to clear the segment, or has cleared its first byte. -/
def ServerPlace.Deaf : ServerPlace → Shared → Prop
  | .clear done, m => 0 ∈ done → m.bytes 0 = 0
  | .poll, m => m.bytes 0 = 0
  | _, _ => False

theorem server_deaf {pc pc' : ServerPlace} {e : Event} {op : SemOp Empty} (hk : pc.Deaf m)
    (h : server c pc m e = some (pc', m', op)) : pc'.Deaf m' := by
  cases pc with
  | clear done =>
    cases e with
    | fail => cases h
    | byte j =>
      simp only [server] at h
      split at h <;> cases h
      intro h0
      show Function.update m.bytes j 0 0 = 0
      by_cases hj : j = 0
      · subst hj
        rw [Function.update_self]
      · rw [Function.update_of_ne (Ne.symm hj)]
        exact hk ((Finset.mem_insert.mp h0).resolve_left (Ne.symm hj))
    | ok =>
      simp only [server] at h
      split at h <;> cases h
      rename_i hall
      exact hk (hall 0 (Nat.succ_pos _))
  | poll =>
    have hzero : m.bytes 0 = 0 := hk
    cases e <;> cases h
    rw [if_pos hzero]
    exact hzero
  | _ => exact absurd hk id

/-- From there the server does not get to its end by itself. -/
theorem not_returned_of_deaf (hk : ServerPlace.Deaf (s.pc .server) s.mem)
    (h : Reaches (step c) ServerAlone s s') : ¬ ServerReturned s' := by
  have hdeaf : ServerPlace.Deaf (s'.pc .server) s'.mem := by
    refine @Reaches.invariant _ _ _ _ _ _ (fun s => ServerPlace.Deaf (s.pc .server) s.mem) hk ?_ h
    intro s₁ a s₂ hd hallowed hstep
    obtain ⟨p, e⟩ := a
    obtain ⟨hp, -⟩ := hallowed
    change p = .server at hp
    subst hp
    obtain ⟨pc, m, op, sem, hnext, -, rfl⟩ := Sys.step_cases hstep
    show ServerPlace.Deaf (Function.update s₁.pc .server pc .server) m
    rw [Function.update_self]
    exact server_deaf hd hnext
  rintro ⟨status, hpc⟩
  rw [hpc] at hdeaf
  exact hdeaf

/-- **With `shmget` a message gets lost** when it has been sent before the segment is cleared. -/
theorem exists_lost (hv : c.version = .systemV) (hsends : c.sends i ≠ none) :
    ∃ s, Reaches (step c) (fun _ _ => True) (init c) s ∧ Lost s := by
  obtain ⟨msg, hmsg⟩ := Option.ne_none_iff_exists'.mp hsends
  have hlen := length_le hmsg
  obtain ⟨bytes, hattach⟩ := leads_to_clear i hv
  have hcopied : Leads c i
      ⟨.clear ∅, .find, ⟨true, some (c.memsegSize + 1), bytes, []⟩⟩
      ⟨.clear ∅, .copy msg (Finset.range (msg.length + 1)),
        filled msg (msg.length + 1) ⟨true, some (c.memsegSize + 1), bytes, []⟩⟩ :=
    (leads_to_copy hmsg rfl rfl).trans (leads_copy (le_refl _) rfl hlen)
  have hleave : Leads c i
      ⟨.clear ∅, .copy msg (Finset.range (msg.length + 1)),
        filled msg (msg.length + 1) ⟨true, some (c.memsegSize + 1), bytes, []⟩⟩
      ⟨.clear ∅, .detach,
        filled msg (msg.length + 1) ⟨true, some (c.memsegSize + 1), bytes, []⟩⟩ :=
    leads_client .ok (by simp [client])
  have hreturn : Leads c i
      ⟨.clear ∅, .detach,
        filled msg (msg.length + 1) ⟨true, some (c.memsegSize + 1), bytes, []⟩⟩
      ⟨.clear ∅, .returned EXIT_SUCCESS,
        filled msg (msg.length + 1) ⟨true, some (c.memsegSize + 1), bytes, []⟩⟩ :=
    leads_client .ok rfl
  obtain ⟨s, hreach, hserver, hclient, -⟩ :=
    (((hattach.trans hcopied).trans hleave).trans hreturn) (init c) (at_init c i)
  refine ⟨s, hreach, ⟨i, hclient, hsends⟩, fun s' h => not_returned_of_deaf ?_ h⟩
  rw [hserver]
  exact fun h0 => absurd h0 (Finset.notMem_empty 0)

theorem lost_iff (hsends : ∃ i, c.sends i ≠ none) :
    (∃ s, Reaches (step c) (fun _ _ => True) (init c) s ∧ Lost s) ↔ c.version = .systemV := by
  obtain ⟨i, hi⟩ := hsends
  constructor
  · rintro ⟨s, hreach, hsent, hnever⟩
    cases hv : c.version with
    | systemV => rfl
    | posix =>
      obtain ⟨s', hreach', hreturned⟩ := exists_returned_of_sent hv hreach hsent
      exact absurd hreturned (hnever s' hreach')
  · intro hv
    exact exists_lost hv hi

theorem lost_iff_greeting :
    (∃ s, Reaches (step (greeting .systemV)) (fun _ _ => True) (init (greeting .systemV)) s ∧
      Lost s) ∧
    ¬ ∃ s, Reaches (step (greeting .posix)) (fun _ _ => True) (init (greeting .posix)) s ∧
      Lost s := by
  have hsends : ∀ v, ∃ i, (greeting v).sends i ≠ none := by
    intro v
    refine ⟨writer v, ?_⟩
    rw [sends_greeting]
    exact Option.some_ne_none _
  constructor
  · exact (lost_iff (hsends .systemV)).mpr rfl
  · rw [lost_iff (hsends .posix)]
    exact nofun

end SharedMessage
end Labs
