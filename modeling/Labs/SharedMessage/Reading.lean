import Labs.SharedMessage.Program

/-!
# What the server reads

The server does not know when a client has finished, so it may read in the middle of `memcpy`. What
keeps it in the segment is that the segment is one byte longer than any message: `fgets` leaves room
for the terminator, so nobody ever writes anything but a zero to the last byte. And since the
segment is cleared before the server polls it, every byte that is not zero was written by a client.

## Races, and what survives them

There is no semaphore in these programs, so nothing is exclusive. While the server copies the
segment clients may write to it, and two clients may write their messages into each other. What can
be said all the same is said byte by byte: a byte of the segment is zero, or the byte that the
message of some client has at this place (`Allowed`). A write keeps that, since a client copies its
message from the front of the segment on, each byte to its own place.

The parties know something of each other, but nothing about the order of their steps.
`ServerPlace.Knows` and `ClientPlace.Knows` say which size of the segment each of them has found,
and `Leaves` is what the others leave of that: a segment that is there stays there, and one that has
the right size keeps it.

The result (`reads_within`) is about every state of every run, so no assumption is made about how
the steps interleave. How much of a message is read is the subject of `Outputs`.
-/

namespace Labs
namespace SharedMessage

open Lib

variable {c : Config} {m m' : Shared} {op : SemOp Empty} {e : Event}
  {s s' : State c}

/-! ## 1. Messages -/

/-- The message that the client sends when it finds the whole segment. -/
def Config.sends (c : Config) (i : Fin c.clients) : Option (List UInt8) :=
  (message (c.memsegSize + 1) (c.input i)).toOption

/-- The byte `j` of a message is `b`. -/
def FromMessage (c : Config) (j : Nat) (b : UInt8) : Prop :=
  ∃ i msg, c.sends i = some msg ∧ msg[j]? = some b

def Allowed (c : Config) (j : Nat) (b : UInt8) : Prop := b = 0 ∨ FromMessage c j b

theorem message_ok {size : Nat} {inp msg : List UInt8} (h : message size inp = .ok msg) :
    NUL ∉ msg ∧ msg ≠ [] ∧ msg.length < size := by
  unfold message at h
  split at h
  · cases h
  · split at h
    · cases h
    · split at h
      · cases h
      · rename_i hsize hone payload rest hread
        have hlen : (cstr payload).length ≤ payload.length :=
          (List.takeWhile_sublist _).length_le
        have hline := fgets_length hread
        split at h
        · cases h
        · rename_i hsome
          rw [not_or] at hsome
          split at h <;> cases h
          · rename_i hnewline
            refine ⟨fun hmem => cstr_nul_free _ (List.mem_of_mem_dropLast hmem), fun hnil => ?_, ?_⟩
            · -- a line that is nothing but a newline is no message
              have hlast : cstr payload = [NEWLINE] := by
                rw [← List.dropLast_append_getLast? NEWLINE hnewline, hnil, List.nil_append]
              apply hsome.2
              cases payload with
              | nil => exact absurd rfl hsome.1
              | cons b payload =>
                have hb : b ≠ NUL := by
                  intro hb
                  apply hsome.1
                  simp [cstr, hb]
                rw [cstr, List.takeWhile_cons_of_pos (by simpa using hb)] at hlast
                rw [(List.cons.inj hlast).1]
                rfl
            · rw [List.length_dropLast]
              omega
          · exact ⟨cstr_nul_free _, hsome.1, by omega⟩

theorem sends_spec {i : Fin c.clients} {msg : List UInt8} (h : c.sends i = some msg) :
    message (c.memsegSize + 1) (c.input i) = .ok msg := by
  unfold Config.sends at h
  cases hm : message (c.memsegSize + 1) (c.input i) with
  | error status =>
    rw [hm] at h
    cases h
  | ok msg' =>
    rw [hm] at h
    cases h
    rfl

theorem length_le {i : Fin c.clients} {msg : List UInt8} (h : c.sends i = some msg) :
    msg.length ≤ c.memsegSize :=
  Nat.le_of_lt_succ (message_ok (sends_spec h)).2.2

/-- The byte that `memcpy` writes to the place `j`. -/
theorem allowed_copied {i : Fin c.clients} {msg : List UInt8} (h : c.sends i = some msg) (j : Nat) :
    Allowed c j (msg.getD j NUL) := by
  cases hj : msg[j]? with
  | none =>
    left
    simp [List.getD, hj, NUL]
  | some b =>
    right
    refine ⟨i, msg, h, ?_⟩
    simp [List.getD, hj]

theorem first_copied {i : Fin c.clients} {msg : List UInt8} (h : c.sends i = some msg) :
    msg.getD 0 NUL ≠ 0 := by
  obtain ⟨hnul, hne, -⟩ := message_ok (sends_spec h)
  obtain ⟨b, rest, rfl⟩ := List.exists_cons_of_ne_nil hne
  intro hb
  apply hnul
  change b = NUL at hb
  rw [hb]
  exact List.mem_cons_self

/-- The last byte of the segment. -/
theorem allowed_last {b : UInt8} (h : Allowed c c.memsegSize b) : b = 0 := by
  rcases h with h0 | ⟨i, msg, hmsg, hb⟩
  · exact h0
  · obtain ⟨hlt, -⟩ := List.getElem?_eq_some_iff.mp hb
    exact absurd hlt (Nat.not_lt.mpr (length_le hmsg))

/-! ## 2. What the parties know -/

/-- What the server has printed are bytes of messages. -/
def Printed (c : Config) (m : Shared) : Prop :=
  m.printed.length ≤ c.memsegSize ∧ ∀ j b, m.printed[j]? = some b → FromMessage c j b

/-- The server finds nothing in the segment that no client has written. -/
structure Clean (c : Config) (m : Shared) : Prop where
  size : m.size = some (c.memsegSize + 1)
  bytes : ∀ j ≤ c.memsegSize, Allowed c j (m.bytes j)

def ServerPlace.Knows (c : Config) : ServerPlace → Shared → Prop
  | .create, m => m.printed = [] ∧ (m.size ≠ none → m.linked = true) ∧
      (m.linked = true → m.size = some (c.memsegSize + 1))
  | .resize, m => m.printed = [] ∧ m.size = some 0 ∧ ∀ j, m.bytes j = 0
  | .attach, m => m.printed = [] ∧ m.size = some (c.memsegSize + 1) ∧
      (c.version = .posix → Clean c m)
  | .clear done, m => m.printed = [] ∧ m.size = some (c.memsegSize + 1) ∧
      c.version ≠ .posix ∧ ∀ j ∈ done, Allowed c j (m.bytes j)
  | .poll, m => m.printed = [] ∧ Clean c m
  | .terminate, m => m.printed = [] ∧ Clean c m ∧ m.bytes 0 ≠ 0
  | .print j, m => m.printed.length = j ∧ Printed c m ∧ Clean c m ∧ m.bytes 0 ≠ 0
  | .detach, m => m.printed ≠ [] ∧ Printed c m
  | .remove, m => m.printed ≠ [] ∧ Printed c m
  | .returned status, m => (status = EXIT_SUCCESS → m.printed ≠ []) ∧ Printed c m
  | .outOfBounds, _ => False

def ClientPlace.Knows (i : Fin c.clients) : ClientPlace → Shared → Prop
  | .find, _ => True
  | .stat, m => m.size ≠ none
  | .read size, m => size = 0 ∨ size = c.memsegSize + 1 ∧ m.size = some (c.memsegSize + 1)
  | .attach msg, m => c.sends i = some msg ∧ m.size = some (c.memsegSize + 1)
  | .copy msg done, m => c.sends i = some msg ∧ m.size = some (c.memsegSize + 1) ∧
      (c.version = .posix → 0 ∈ done → m.bytes 0 ≠ 0)
  | .detach, m => m.size = some (c.memsegSize + 1) ∧ (c.version = .posix → m.bytes 0 ≠ 0)
  | .returned status, m => status = EXIT_SUCCESS → c.sends i ≠ none →
      m.size ≠ none ∧ (c.version = .posix → m.bytes 0 ≠ 0)
  | .outOfBounds, _ => False

def Knows : (p : Party c) → Place p → Shared → Prop
  | .server => ServerPlace.Knows c
  | .client i => ClientPlace.Knows i

def Sane (c : Config) (m : Shared) : Prop :=
  (m.linked = true → m.size ≠ none) ∧
    (m.size = none ∨ m.size = some 0 ∨ m.size = some (c.memsegSize + 1))

/-! ## 3. What a step keeps -/

theorem Clean.setByte (h : Clean c m) {j : Nat} {b : UInt8} (hb : Allowed c j b) :
    Clean c (m.setByte j b) := by
  refine ⟨h.size, fun k hk => ?_⟩
  show Allowed c k (Function.update m.bytes j b k)
  by_cases hkj : k = j
  · subst hkj
    rw [Function.update_self]
    exact hb
  · rw [Function.update_of_ne hkj]
    exact h.bytes k hk

/-- The byte that the server gets to is one of a message, or the end of what it prints. -/
theorem Printed.snoc (h : Printed c m) (hclean : Clean c m) (hj : m.printed.length ≤ c.memsegSize)
    (hb : m.bytes m.printed.length ≠ 0) :
    Printed c { m with printed := m.printed ++ [m.bytes m.printed.length] } := by
  have hfrom := (hclean.bytes _ hj).resolve_left hb
  refine ⟨?_, fun k b hk => ?_⟩
  · -- the last byte of the segment is a zero
    rw [List.length_append, List.length_singleton]
    rcases Nat.lt_or_eq_of_le hj with hlt | heq
    · exact hlt
    · rw [heq] at hb hfrom
      exact absurd (allowed_last (.inr hfrom)) hb
  · change (m.printed ++ [m.bytes m.printed.length])[k]? = some b at hk
    rcases Nat.lt_trichotomy k m.printed.length with hlt | rfl | hgt
    · rw [List.getElem?_append_left hlt] at hk
      exact h.2 k b hk
    · rw [List.getElem?_concat_length] at hk
      cases hk
      exact hfrom
    · rw [List.getElem?_eq_none (by simp; omega)] at hk
      cases hk

theorem printed_nil (h : m.printed = []) : Printed c m := by
  rw [Printed, h]
  refine ⟨Nat.zero_le _, fun j b hj => ?_⟩
  cases hj

theorem server_knows {pc pc' : ServerPlace} (hk : pc.Knows c m)
    (h : server c pc m e = some (pc', m', op)) : pc'.Knows c m' := by
  cases pc with
  | create =>
    obtain ⟨hnil, -, hlinked⟩ := hk
    cases e with
    | byte j => cases h
    | fail =>
      cases h
      exact ⟨nofun, printed_nil hnil⟩
    | ok =>
      cases h
      show ServerPlace.Knows c (create c m).1 (create c m).2
      unfold create
      cases hv : c.version <;> cases hl : m.linked
      · exact ⟨hnil, rfl, fun _ => rfl⟩
      · exact ⟨nofun, printed_nil hnil⟩
      · exact ⟨hnil, rfl, fun hw => absurd (hv.symm.trans hw) nofun⟩
      · exact ⟨hnil, hlinked hl, fun hw => absurd (hv.symm.trans hw) nofun⟩
  | resize =>
    obtain ⟨hnil, hsize, hzero⟩ := hk
    cases e with
    | byte j => cases h
    | fail =>
      cases h
      exact ⟨nofun, printed_nil hnil⟩
    | ok =>
      cases h
      exact ⟨hnil, rfl, fun _ => ⟨rfl, fun j _ => .inl (hzero j)⟩⟩
  | attach =>
    obtain ⟨hnil, hsize, hclean⟩ := hk
    cases e with
    | byte j => cases h
    | fail =>
      cases h
      exact ⟨nofun, printed_nil hnil⟩
    | ok =>
      cases h
      split
      · rename_i hv
        exact ⟨hnil, hclean hv⟩
      · rename_i hv
        exact ⟨hnil, hsize, hv, fun j hj => absurd hj (Finset.notMem_empty j)⟩
  | clear done =>
    obtain ⟨hnil, hsize, hv, hdone⟩ := hk
    cases e with
    | fail => cases h
    | byte j =>
      simp only [server] at h
      split at h <;> cases h
      refine ⟨hnil, hsize, hv, fun k hk => ?_⟩
      show Allowed c k (Function.update m.bytes j 0 k)
      by_cases hkj : k = j
      · subst hkj
        rw [Function.update_self]
        exact .inl rfl
      · rw [Function.update_of_ne hkj]
        exact hdone k ((Finset.mem_insert.mp hk).resolve_left hkj)
    | ok =>
      simp only [server] at h
      split at h <;> cases h
      rename_i hall
      exact ⟨hnil, hsize, fun j hj => hdone j (hall j (Nat.lt_succ_of_le hj))⟩
  | poll =>
    obtain ⟨hnil, hclean⟩ := hk
    cases e <;> cases h
    split
    · exact ⟨hnil, hclean⟩
    · rename_i hfirst
      exact ⟨hnil, hclean, hfirst⟩
  | terminate =>
    obtain ⟨hnil, hclean, hfirst⟩ := hk
    cases e <;> cases h
    refine ⟨?_, printed_nil hnil, hclean.setByte (.inl rfl), ?_⟩
    · show m.printed.length = 0
      rw [hnil]
      rfl
    · show Function.update m.bytes c.memsegSize 0 0 ≠ 0
      rw [Function.update_of_ne (Nat.ne_of_lt c.memsegPos)]
      exact hfirst
  | print j =>
    obtain ⟨hlen, hprinted, hclean, hfirst⟩ := hk
    subst hlen
    cases e with
    | byte j => cases h
    | fail => cases h
    | ok =>
      have hin : ¬ m.size.getD 0 ≤ m.printed.length := by
        rw [hclean.size]
        exact Nat.not_le.mpr (Nat.lt_succ_of_le hprinted.1)
      simp only [server, if_neg hin] at h
      split at h <;> cases h
      · rename_i hzero
        refine ⟨fun hnil => ?_, hprinted⟩
        rw [hnil] at hzero
        exact hfirst hzero
      · rename_i hb
        exact ⟨by simp, hprinted.snoc hclean hprinted.1 hb, ⟨hclean.size, hclean.bytes⟩, hfirst⟩
  | detach =>
    cases e <;> cases h
    · exact hk
    · exact ⟨nofun, hk.2⟩
  | remove =>
    cases e <;> cases h
    · exact ⟨fun _ => hk.1, hk.2⟩
    · exact ⟨nofun, hk.2⟩
  | returned status => cases e <;> cases h
  | outOfBounds => exact absurd hk id

theorem client_knows {i : Fin c.clients} {pc pc' : ClientPlace} (hsane : Sane c m)
    (hk : pc.Knows i m) (h : client c i pc m e = some (pc', m', op)) : pc'.Knows i m' := by
  cases pc with
  | find =>
    cases e <;> cases h
    · split
      · rename_i hl
        exact hsane.1 hl
      · exact nofun
    · exact nofun
  | stat =>
    cases e with
    | byte j => cases h
    | fail =>
      cases h
      exact nofun
    | ok =>
      simp only [client] at h
      split at h <;> cases h
      · exact nofun
      · rcases hsane.2 with hnone | h0 | hall
        · exact absurd hnone hk
        · left
          rw [h0]
          rfl
        · right
          rw [hall]
          exact ⟨rfl, rfl⟩
  | read size =>
    cases e with
    | byte j => cases h
    | fail =>
      cases h
      exact nofun
    | ok =>
      simp only [client] at h
      cases hm : message size (c.input i) with
      | error status =>
        simp only [hm] at h
        cases h
        intro hs hsends
        rcases hk with h0 | ⟨hsize, -⟩
        · rw [h0] at hm
          cases hm
          cases hs
        · rw [hsize] at hm
          exact absurd (by rw [Config.sends, hm]; rfl) hsends
      | ok msg =>
        simp only [hm] at h
        cases h
        rcases hk with h0 | ⟨hsize, hall⟩
        · rw [h0] at hm
          cases hm
        · rw [hsize] at hm
          exact ⟨by rw [Config.sends, hm]; rfl, hall⟩
  | attach msg =>
    cases e with
    | byte j => cases h
    | fail =>
      cases h
      exact nofun
    | ok =>
      simp only [client] at h
      split at h <;> cases h
      · exact nofun
      · exact ⟨hk.1, hk.2, fun _ h0 => absurd h0 (Finset.notMem_empty 0)⟩
  | copy msg done =>
    obtain ⟨hsends, hsize, hfirst⟩ := hk
    cases e with
    | fail => cases h
    | byte j =>
      simp only [client] at h
      split at h
      · rename_i hj
        have hin : ¬ m.size.getD 0 ≤ j := by
          rw [hsize]
          exact Nat.not_le.mpr (Nat.lt_succ_of_le (Nat.le_trans hj.1 (length_le hsends)))
        rw [if_neg hin] at h
        cases h
        refine ⟨hsends, hsize, fun hv h0 => ?_⟩
        show Function.update m.bytes j (msg.getD j NUL) 0 ≠ 0
        by_cases hj0 : j = 0
        · subst hj0
          rw [Function.update_self]
          exact first_copied hsends
        · rw [Function.update_of_ne (Ne.symm hj0)]
          exact hfirst hv ((Finset.mem_insert.mp h0).resolve_left (Ne.symm hj0))
      · cases h
    | ok =>
      simp only [client] at h
      split at h <;> cases h
      rename_i hall
      exact ⟨hsize, fun hv => hfirst hv (hall 0 (Nat.succ_pos _))⟩
  | detach =>
    cases e <;> cases h
    · exact fun _ _ => ⟨by rw [hk.1]; exact nofun, hk.2⟩
    · exact nofun
  | returned status => cases e <;> cases h
  | outOfBounds => exact absurd hk id

/-! ## 4. What a step leaves to the others -/

/-- A client writes a byte of its message, if it writes anything. -/
def Writes (c : Config) (m m' : Shared) : Prop :=
  m' = m ∨ ∃ j b, m' = m.setByte j b ∧ m.size = some (c.memsegSize + 1) ∧ Allowed c j b ∧
    (j = 0 → b ≠ 0)

theorem client_writes {i : Fin c.clients} {pc pc' : ClientPlace} (hk : pc.Knows i m)
    (h : client c i pc m e = some (pc', m', op)) : Writes c m m' := by
  cases pc with
  | copy msg done =>
    obtain ⟨hsends, hsize, -⟩ := hk
    cases e with
    | fail => cases h
    | byte j =>
      simp only [client] at h
      split at h
      · split at h <;> cases h
        · exact .inl rfl
        · refine .inr ⟨j, _, rfl, hsize, allowed_copied hsends j, fun h0 => ?_⟩
          rw [h0]
          exact first_copied hsends
      · cases h
    | ok =>
      simp only [client] at h
      split at h <;> cases h
      exact .inl rfl
  | read size =>
    left
    cases e with
    | byte j => cases h
    | fail =>
      cases h
      rfl
    | ok =>
      simp only [client] at h
      split at h <;> cases h <;> rfl
  | stat | attach msg =>
    left
    cases e with
    | byte j => cases h
    | fail =>
      cases h
      rfl
    | ok =>
      simp only [client] at h
      split at h <;> cases h <;> rfl
  | _ =>
    left
    cases e <;> cases h <;> rfl

theorem ServerPlace.Knows.of_writes {pc : ServerPlace} (hk : pc.Knows c m) (h : Writes c m m') :
    pc.Knows c m' := by
  rcases h with rfl | ⟨j, b, rfl, hsize, hb, hfirst⟩
  · exact hk
  · have hbyte : ∀ k, Allowed c k (m.bytes k) → Allowed c k ((m.setByte j b).bytes k) := by
      intro k hold
      show Allowed c k (Function.update m.bytes j b k)
      by_cases hkj : k = j
      · subst hkj
        rw [Function.update_self]
        exact hb
      · rw [Function.update_of_ne hkj]
        exact hold
    have hzero : m.bytes 0 ≠ 0 → (m.setByte j b).bytes 0 ≠ 0 := by
      intro hold
      show Function.update m.bytes j b 0 ≠ 0
      by_cases h0 : j = 0
      · subst h0
        rw [Function.update_self]
        exact hfirst rfl
      · rw [Function.update_of_ne (Ne.symm h0)]
        exact hold
    cases pc with
    | create | detach | remove | returned status => exact hk
    | resize =>
      -- nobody has found more than an empty segment yet
      have hnone := hsize.symm.trans hk.2.1
      simp at hnone
    | attach => exact ⟨hk.1, hk.2.1, fun hv => (hk.2.2 hv).setByte hb⟩
    | clear done => exact ⟨hk.1, hk.2.1, hk.2.2.1, fun k hkd => hbyte k (hk.2.2.2 k hkd)⟩
    | poll => exact ⟨hk.1, hk.2.setByte hb⟩
    | terminate => exact ⟨hk.1, hk.2.1.setByte hb, hzero hk.2.2⟩
    | print k => exact ⟨hk.1, hk.2.1, hk.2.2.1.setByte hb, hzero hk.2.2.2⟩
    | outOfBounds => exact hk

/-- What a client relies on. -/
structure Leaves (c : Config) (m m' : Shared) : Prop where
  found : m.size ≠ none → m'.size ≠ none
  whole : m.size = some (c.memsegSize + 1) → m'.size = some (c.memsegSize + 1)
  first : c.version = .posix → m.size ≠ none → m.bytes 0 ≠ 0 → m'.bytes 0 ≠ 0

theorem Leaves.refl (m : Shared) : Leaves c m m := ⟨id, id, fun _ _ h => h⟩

theorem Writes.leaves (h : Writes c m m') : Leaves c m m' := by
  rcases h with rfl | ⟨j, b, rfl, -, -, hfirst⟩
  · exact .refl _
  · refine ⟨id, id, fun _ _ hold => ?_⟩
    show Function.update m.bytes j b 0 ≠ 0
    by_cases h0 : j = 0
    · subst h0
      rw [Function.update_self]
      exact hfirst rfl
    · rw [Function.update_of_ne (Ne.symm h0)]
      exact hold

theorem server_leaves {pc pc' : ServerPlace} (hk : pc.Knows c m)
    (h : server c pc m e = some (pc', m', op)) : Leaves c m m' := by
  cases pc with
  | create =>
    cases e with
    | byte j => cases h
    | fail =>
      cases h
      exact .refl m
    | ok =>
      cases h
      show Leaves c m (create c m).2
      unfold create
      have hnew : m.linked = false → m.size = none := by
        intro hl
        by_contra hsome
        rw [hk.2.1 hsome] at hl
        cases hl
      cases hv : c.version <;> cases hl : m.linked
      · have hnone := hnew hl
        exact ⟨fun h => absurd hnone h, fun h => absurd (hnone.symm.trans h) nofun,
          fun _ h => absurd hnone h⟩
      · exact .refl m
      · exact ⟨fun _ => nofun, fun _ => rfl, fun hw => absurd (hv.symm.trans hw) nofun⟩
      · exact .refl m
  | resize =>
    cases e <;> cases h
    · exact ⟨fun _ => nofun, fun _ => rfl, fun _ _ hold => hold⟩
    · exact .refl m
  | clear done =>
    cases e with
    | fail => cases h
    | byte j =>
      simp only [server] at h
      split at h <;> cases h
      exact ⟨id, id, fun hv => absurd hv hk.2.2.1⟩
    | ok =>
      simp only [server] at h
      split at h <;> cases h
      exact .refl m
  | terminate =>
    cases e <;> cases h
    refine ⟨id, id, fun _ _ hold => ?_⟩
    show Function.update m.bytes c.memsegSize 0 0 ≠ 0
    rw [Function.update_of_ne (Nat.ne_of_lt c.memsegPos)]
    exact hold
  | print j =>
    cases e with
    | byte j => cases h
    | fail => cases h
    | ok =>
      simp only [server] at h
      split at h
      · cases h
        exact .refl m
      · split at h <;> cases h
        · exact .refl m
        · exact ⟨id, id, fun _ _ hold => hold⟩
  | remove =>
    cases e <;> cases h
    · exact ⟨id, id, fun _ _ hold => hold⟩
    · exact .refl m
  | _ =>
    cases e <;> cases h <;> exact .refl m

theorem ClientPlace.Knows.of_leaves {i : Fin c.clients} {pc : ClientPlace} (hk : pc.Knows i m)
    (h : Leaves c m m') : pc.Knows i m' := by
  have hsome : m.size = some (c.memsegSize + 1) → m.size ≠ none := by
    intro hsize hnone
    rw [hnone] at hsize
    cases hsize
  cases pc with
  | find => trivial
  | stat => exact h.found hk
  | read size => exact hk.imp_right fun hall => ⟨hall.1, h.whole hall.2⟩
  | attach msg => exact ⟨hk.1, h.whole hk.2⟩
  | copy msg done =>
    exact ⟨hk.1, h.whole hk.2.1, fun hv h0 => h.first hv (hsome hk.2.1) (hk.2.2 hv h0)⟩
  | detach => exact ⟨h.whole hk.1, fun hv => h.first hv (hsome hk.1) (hk.2 hv)⟩
  | returned status =>
    intro hs hsends
    obtain ⟨hfound, hfirst⟩ := hk hs hsends
    exact ⟨h.found hfound, fun hv => h.first hv hfound (hfirst hv)⟩
  | outOfBounds => exact hk

/-! ## 5. Every run -/

/-- There are no semaphores. -/
def held (p : Party c) (_ : Place p) : Set Empty := ∅

theorem disciplined (c : Config) : Disciplined (program c) held := by
  intro p pc m e pc' m' op _
  cases op with
  | skip => rfl
  | wait x => exact x.elim
  | post x => exact x.elim
  | leave x => exact x.elim

def Inv (s : State c) : Prop := Sound held (Sane c) Knows s

theorem inv_init (c : Config) : Inv (init c) := by
  refine ⟨.initial (fun _ => rfl) fun _ => rfl, ?_, fun p => ?_⟩
  · unfold init
    cases c.old with
    | none => exact ⟨nofun, .inl rfl⟩
    | some bytes => exact ⟨fun _ => nofun, .inr (.inr rfl)⟩
  · cases p with
    | client i => trivial
    | server =>
      show ServerPlace.Knows c .create (init c).mem
      unfold init
      cases c.old with
      | none => exact ⟨rfl, fun h => absurd rfl h, nofun⟩
      | some bytes => exact ⟨rfl, fun _ => rfl, fun _ => rfl⟩

theorem server_sane {pc pc' : ServerPlace} (hsane : Sane c m)
    (h : server c pc m e = some (pc', m', op)) : Sane c m' := by
  cases pc with
  | create =>
    cases e with
    | byte j => cases h
    | fail =>
      cases h
      exact hsane
    | ok =>
      cases h
      show Sane c (create c m).2
      unfold create
      split
      · exact hsane
      · exact ⟨fun _ => nofun, .inr (.inl rfl)⟩
      · exact hsane
      · exact ⟨fun _ => nofun, .inr (.inr rfl)⟩
  | resize =>
    cases e <;> cases h
    · exact ⟨fun _ => nofun, .inr (.inr rfl)⟩
    · exact hsane
  | clear done =>
    cases e with
    | fail => cases h
    | _ =>
      simp only [server] at h
      split at h <;> cases h
      exact hsane
  | print j =>
    cases e with
    | byte j => cases h
    | fail => cases h
    | ok =>
      simp only [server] at h
      split at h
      · cases h
        exact hsane
      · split at h <;> cases h <;> exact hsane
  | remove =>
    cases e <;> cases h
    · exact ⟨nofun, hsane.2⟩
    · exact hsane
  | _ =>
    cases e <;> cases h <;> exact hsane

theorem Writes.sane (h : Writes c m m') (hsane : Sane c m) : Sane c m' := by
  rcases h with rfl | ⟨j, b, rfl, -⟩
  · exact hsane
  · exact hsane

theorem Inv.step {a : Party c × Event} (h : Inv s) (hstep : step c s a = some s') : Inv s' := by
  obtain ⟨p, e⟩ := a
  refine Sound.step h (disciplined c) ?_ ?_ hstep
  · intro pc m op hnext
    cases p with
    | server => exact ⟨server_sane h.mem hnext, server_knows (h.knows .server) hnext⟩
    | client i =>
      exact ⟨(client_writes (h.knows (.client i)) hnext).sane h.mem,
        client_knows h.mem (h.knows (.client i)) hnext⟩
  · intro q pc m op hne hnext _ hq
    cases p with
    | server =>
      cases q with
      | server => exact absurd rfl hne
      | client j =>
        exact ClientPlace.Knows.of_leaves hq (server_leaves (h.knows .server) hnext)
    | client i =>
      have hwrites := client_writes (h.knows (.client i)) hnext
      cases q with
      | server => exact ServerPlace.Knows.of_writes hq hwrites
      | client j => exact ClientPlace.Knows.of_leaves hq hwrites.leaves

theorem inv_of_reaches {allowed : State c → Party c × Event → Prop}
    (h : Reaches (step c) allowed (init c) s) : Inv s :=
  h.invariant (inv_init c) fun _ _ _ h _ hstep => h.step hstep

theorem Inv.printed (h : Inv s) : Printed c s.mem := by
  have hk := h.knows .server
  change ServerPlace.Knows c (s.pc .server) s.mem at hk
  generalize s.pc .server = pc at hk
  change ServerPlace at pc
  cases pc with
  | create | resize | attach | clear done | poll | terminate => exact printed_nil hk.1
  | print j => exact hk.2.1
  | detach | remove | returned status => exact hk.2
  | outOfBounds => exact absurd hk id

/-- **Whenever the server reads**, it reads within the segment, and so do the clients write. It
    prints bytes of messages in their places, no more than there is room for, and not nothing. -/
theorem reads_within (h : Reaches (step c) (fun _ _ => True) (init c) s) :
    s.pc .server ≠ ServerPlace.outOfBounds ∧
      (∀ i, s.pc (.client i) ≠ ClientPlace.outOfBounds) ∧ Printed c s.mem ∧
      (s.pc .server = ServerPlace.returned EXIT_SUCCESS → s.mem.printed ≠ []) := by
  have hinv := inv_of_reaches h
  refine ⟨fun hpc => ?_, fun i hpc => ?_, hinv.printed, fun hpc => ?_⟩
  · have hk := hinv.knows .server
    rw [hpc] at hk
    exact hk
  · have hk := hinv.knows (.client i)
    rw [hpc] at hk
    exact hk
  · have hk := hinv.knows .server
    rw [hpc] at hk
    exact hk.1 rfl

/-- One client, which is typed a word. -/
def greeting (v : Version) : Config :=
  ⟨v, 1, 4, Nat.succ_pos 3, none, fun _ => ascii "hi" ++ [NEWLINE]⟩

theorem sends_greeting (v : Version) (i : Fin (greeting v).clients) :
    (greeting v).sends i = some (ascii "hi") := by
  have h : (message 5 (ascii "hi" ++ [NEWLINE])).toOption = some (ascii "hi") := by decide
  exact h

def writer (v : Version) : Fin (greeting v).clients := ⟨0, Nat.one_pos⟩

/-- The server reads before the client has copied the second byte. -/
def hasty : List (Party (greeting .posix) × Event) :=
  [(.server, .ok), (.server, .ok), (.server, .ok), (.client (writer _), .ok),
    (.client (writer _), .ok), (.client (writer _), .ok), (.client (writer _), .ok),
    (.client (writer _), .byte 0), (.server, .ok), (.server, .ok), (.server, .ok), (.server, .ok),
    (.client (writer _), .byte 1), (.server, .ok), (.server, .ok)]

theorem reads_within_hasty : ∃ s : State (greeting .posix),
    Reaches (step (greeting .posix)) (fun _ _ => True) (init (greeting .posix)) s ∧
    s.pc .server = ServerPlace.returned EXIT_SUCCESS ∧ Printed (greeting .posix) s.mem ∧
      s.mem.printed ≠ [] := by
  have hrun : ((run (step (greeting .posix)) hasty (init (greeting .posix))).map
      fun s => s.pc .server) = some (ServerPlace.returned EXIT_SUCCESS) := by decide
  obtain ⟨s, hs, hpc⟩ := Option.map_eq_some_iff.mp hrun
  have hreach : Reaches (step (greeting .posix)) (fun _ _ => True) (init (greeting .posix)) s :=
    reaches_of_run (fun _ _ _ => trivial) .start hs
  obtain ⟨-, -, hprinted, hsome⟩ := reads_within hreach
  exact ⟨s, hreach, hpc, hprinted, hsome hpc⟩

end SharedMessage
end Labs
