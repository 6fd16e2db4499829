import Labs.EchoServer.Conversation

/-!
# What is answered

All clients share the buffer of the server, but after its greeting a client sends a whole buffer,
which leaves nothing of what another one has said. So what a client prints is what it has said
itself, and a `!`.

A line of 1023 bytes loses its last one before it is sent, so the `!` always has room. Only a
greeting is shorter than the buffer, and it is answered with the rest of an older text: with a
second client, that can be one too long. The client and the server use one test for `close`, which
holds for its prefixes too.
-/

namespace Labs
namespace EchoServer

open Lib

variable {c : Config} {b b' : Buffer} {s t r : List UInt8} {k k' : Client} {m m' : Net c}
  {i j : Fin c.clients}

/-! ## 1. Texts -/

/-- The text that `strncmp` takes for `close`. -/
def Closing (s : List UInt8) : Prop := s <+: ascii "close" ∨ s.head? = some 255

instance (s : List UInt8) : Decidable (Closing s) := inferInstanceAs (Decidable (_ ∨ _))

theorem closing_nil : Closing [] := Or.inl List.nil_prefix

/-- The text of a buffer. -/
def Text (b : Buffer) (s : List UInt8) : Prop := NUL ∉ s ∧ ∃ rest, b.bytes = s ++ NUL :: rest

theorem Text.cstr_eq (h : Text b s) : cstr b.bytes = s := by
  obtain ⟨hs, rest, hb⟩ := h
  rw [hb, cstr_append_nul hs]

theorem Text.mem (h : Text b s) : NUL ∈ b.bytes := by
  obtain ⟨-, rest, hb⟩ := h
  simp [hb]

theorem Text.length_lt (h : Text b s) : s.length < BUFFER_SIZE := by
  obtain ⟨-, rest, hb⟩ := h
  have hlen := congrArg List.length hb
  rw [b.size_eq, List.length_append, List.length_cons] at hlen
  omega

theorem text_of_mem (h : NUL ∈ b.bytes) : Text b (cstr b.bytes) :=
  ⟨cstr_nul_free _, exists_eq_cstr_append h⟩

theorem Text.head_eq (h : Text b s) : b.bytes.head? = some 255 ↔ s.head? = some 255 := by
  obtain ⟨-, rest, hb⟩ := h
  rw [hb]
  cases s with
  | nil => simp [NUL]
  | cons x s => simp

theorem cstr_close : cstr (ascii "close") = ascii "close" := cstr_eq_self (by decide)

theorem serverCloses_iff (h : Text b s) : serverCloses b = true ↔ Closing s := by
  unfold serverCloses strncmpEq strlen Closing
  rw [Bool.or_eq_true, beq_iff_eq, beq_iff_eq, h.cstr_eq, h.head_eq, cstr_close,
    List.take_of_length_le (le_refl s.length), List.prefix_iff_eq_take, eq_comm]

theorem clientCloses_iff (h : Text b s) : clientCloses b s.length = true ↔ Closing s := by
  unfold clientCloses strncmpEq Closing
  rw [Bool.or_eq_true, beq_iff_eq, beq_iff_eq, h.cstr_eq, h.head_eq, cstr_close,
    List.take_of_length_le (le_refl s.length), List.prefix_iff_eq_take]

/-! ## 2. What a client says -/

/-- The first `n` lines of the input, without their last bytes. -/
def lines : Nat → List UInt8 → List (List UInt8)
  | 0, _ => []
  | n + 1, inp =>
    match fgets BUFFER_SIZE inp with
    | none => []
    | some (line, rest) => line.dropLast :: lines n rest

/-- What is left of the input behind `n` lines. -/
def behind : Nat → List UInt8 → List UInt8
  | 0, inp => inp
  | n + 1, inp =>
    match fgets BUFFER_SIZE inp with
    | none => inp
    | some (_, rest) => behind n rest

/-- What the client says next: a line, or its text once more. -/
def next (t inp : List UInt8) : List UInt8 :=
  match fgets BUFFER_SIZE inp with
  | none => t.dropLast
  | some (line, _) => line.dropLast

theorem lines_succ (n : Nat) (inp : List UInt8) :
    lines (n + 1) inp = lines n inp ++ (lines 1 (behind n inp)) := by
  induction n generalizing inp with
  | zero => rfl
  | succ n ih =>
    rw [lines, behind]
    cases hread : fgets BUFFER_SIZE inp with
    | none => simp [lines, hread]
    | some p =>
      rw [lines, hread]
      simp [ih]

theorem behind_succ (n : Nat) (inp : List UInt8) :
    behind (n + 1) inp = behind 1 (behind n inp) := by
  induction n generalizing inp with
  | zero => rfl
  | succ n ih =>
    cases hread : fgets BUFFER_SIZE inp with
    | none => simp [behind, hread]
    | some p =>
      have hfront : ∀ k, behind (k + 1) inp = behind k p.2 := by
        intro k
        simp [behind, hread]
      rw [hfront, hfront, ih]

theorem length_lines {n : Nat} {inp : List UInt8} (h : fgets BUFFER_SIZE (behind n inp) ≠ none) :
    (lines n inp).length = n := by
  induction n generalizing inp with
  | zero => rfl
  | succ n ih =>
    cases hread : fgets BUFFER_SIZE inp with
    | none =>
      have hfront : behind (n + 1) inp = inp := by simp [behind, hread]
      rw [hfront] at h
      exact absurd hread h
    | some p =>
      have hfront : behind (n + 1) inp = behind n p.2 := by simp [behind, hread]
      rw [hfront] at h
      have hlines : lines (n + 1) inp = p.1.dropLast :: lines n p.2 := by simp [lines, hread]
      rw [hlines, List.length_cons, ih h]

theorem nul_free_of_fgets {size : Nat} {inp line rest : List UInt8} (h : NUL ∉ inp)
    (hread : fgets size inp = some (line, rest)) : NUL ∉ line ∧ NUL ∉ rest := by
  rw [← fgets_append hread] at h
  simpa using h

theorem behind_nul_free {inp : List UInt8} (h : NUL ∉ inp) (n : Nat) : NUL ∉ behind n inp := by
  induction n generalizing inp with
  | zero => exact h
  | succ n ih =>
    cases hread : fgets BUFFER_SIZE inp with
    | none => simpa [behind, hread] using h
    | some p =>
      have hfront : behind (n + 1) inp = behind n p.2 := by simp [behind, hread]
      rw [hfront]
      exact ih (nul_free_of_fgets h hread).2

/-- The text once its last byte is overwritten. -/
theorem text_write {len : Nat} (h : Text b t) (hlen : t.length = len + 1) :
    ∃ b', b.write len [NUL] = some b' ∧ Text b' t.dropLast := by
  have hlt := h.length_lt
  obtain ⟨b', hb'⟩ := @Block.write_of_le _ b len [NUL] (by simp; omega)
  obtain ⟨ht, rest, hb⟩ := h
  refine ⟨b', hb', fun hm => ht (List.mem_of_mem_dropLast hm), b.bytes.drop (len + 1), ?_⟩
  obtain ⟨-, hbytes⟩ := Block.write_bytes hb'
  have htake : b.bytes.take len = t.dropLast := by
    rw [hb, List.take_append_of_le_length (by omega), List.dropLast_eq_take, hlen,
      Nat.add_sub_cancel]
  rw [hbytes, htake]
  simp

/-- **What a client says**, and that it stays in its buffer. -/
theorem say_spec (ht : Text k.buffer t) (hne : t ≠ [] ∨ k.input ≠ []) (hinp : NUL ∉ k.input) :
    ∃ b, say k = some (⟨b, behind 1 k.input, k.said ++ [next t k.input], k.printed⟩,
        decide (Closing (next t k.input))) ∧
      Text b (next t k.input) ∧ (next t k.input).length + 2 ≤ BUFFER_SIZE := by
  -- the buffer that `fgets` leaves
  obtain ⟨b₀, t₀, hread, htext, hne₀, hnext⟩ : ∃ b₀ t₀,
      fgetsBuffer k = some (b₀, behind 1 k.input) ∧ Text b₀ t₀ ∧ t₀ ≠ [] ∧
        next t k.input = t₀.dropLast := by
    unfold fgetsBuffer behind next
    cases hread : fgets BUFFER_SIZE k.input with
    | none =>
      have hend : k.input = [] := by
        by_contra hsome
        simp [fgets, hsome] at hread
      exact ⟨k.buffer, t, rfl, ht, hne.resolve_right (not_not.mpr hend), rfl⟩
    | some p =>
      obtain ⟨line, rest⟩ := p
      have hlen := fgets_length hread
      have hline := (nul_free_of_fgets hinp hread).1
      obtain ⟨b₀, hb₀⟩ := @Block.write_of_le _ k.buffer 0 (line ++ [NUL]) (by
        rw [Nat.zero_add, List.length_append, List.length_singleton]
        unfold BUFFER_SIZE at hlen ⊢
        omega)
      obtain ⟨-, hbytes⟩ := Block.write_bytes hb₀
      refine ⟨b₀, line, ?_, ⟨hline, k.buffer.bytes.drop (0 + (line ++ [NUL]).length), ?_⟩,
        fgets_ne_nil (by decide) hread, rfl⟩
      · simp [hb₀, behind]
      · rw [hbytes]
        simp
  obtain ⟨len, hlen⟩ : ∃ len, t₀.length = len + 1 :=
    ⟨t₀.length - 1, by have := List.length_pos_iff.mpr hne₀; omega⟩
  obtain ⟨b, hwrite, hb⟩ := text_write htext hlen
  have hlt := htext.length_lt
  have hcut : t₀.dropLast.length = len := by
    rw [List.length_dropLast, hlen, Nat.add_sub_cancel]
  have hfind : memchr b₀.bytes NUL = some (len + 1) := by
    obtain ⟨hfree, rest, hbytes⟩ := htext
    rw [hbytes, memchr_nul hfree, hlen]
  have hcloses : clientCloses b len = decide (Closing t₀.dropLast) := by
    have := clientCloses_iff hb
    rw [hcut] at this
    by_cases h : Closing t₀.dropLast
    · simp [h, this.mpr h]
    · simp only [h, decide_false]
      exact Bool.eq_false_iff.mpr (mt this.mp h)
  refine ⟨b, ?_, hnext ▸ hb, by rw [hnext, hcut]; omega⟩
  rw [say, hread, hnext]
  simp [hfind, hwrite, hb.cstr_eq, hcloses]

/-! ## 3. What the server answers -/

/-- The whole buffer with the text `s` and a `!`. -/
def ReplyTo (s r : List UInt8) : Prop :=
  r.length = BUFFER_SIZE ∧ NUL ∉ s ∧ ∃ rest, r = s ++ ascii "!" ++ NUL :: rest

theorem strncat_text (h : Text b s) (hlen : s.length + 2 ≤ BUFFER_SIZE) :
    ∃ b', strncat b = some b' ∧ ReplyTo s b'.bytes := by
  obtain ⟨hs, rest, hb⟩ := h
  obtain ⟨b', hb', hbytes⟩ := strncat_eq_some hs hb hlen
  exact ⟨b', hb', b'.size_eq, hs, _, hbytes⟩

theorem replyTo_of_strncat (h : Text b s) (hb' : strncat b = some b') : ReplyTo s b'.bytes := by
  have hlen : s.length + 2 ≤ BUFFER_SIZE := by
    by_contra hlt
    have hnone := @strncat_eq_none b (by rw [h.cstr_eq]; omega)
    cases hnone.symm.trans hb'
  obtain ⟨b'', hb'', hreply⟩ := strncat_text h hlen
  cases hb''.symm.trans hb'
  exact hreply

/-- A whole buffer leaves nothing of the one before. -/
theorem recvfrom_whole (h : r.length = BUFFER_SIZE) : (recvfrom b r).bytes = r := by
  show r.take BUFFER_SIZE ++ b.bytes.drop r.length = r
  rw [List.take_of_length_le h.le, List.drop_eq_nil_of_le (by rw [b.size_eq, h]), List.append_nil]

theorem ReplyTo.text (h : ReplyTo s r) : Text (recvfrom b r) (s ++ ascii "!") := by
  obtain ⟨hlen, hs, rest, hr⟩ := h
  refine ⟨?_, rest, (recvfrom_whole hlen).trans hr⟩
  have hbang : NUL ∉ ascii "!" := by decide
  simp [hs, hbang]

end EchoServer
end Labs
