import Labs.EchoServer.Whose

/-!
# A greeting too many

A greeting leaves the rest of the buffer as it is, and the `!` goes behind the text that it finds
there. Behind the answer to a line that fills the buffer there is no room, so the next client that
greets the server makes it write behind its buffer.

## The run

It is built step by step. Each step is of one party, whose place is known, and leaves the others
where they are (`Reaches.party`); so after the fifth the second client is still at its first.

* The first client greets the server and is answered, and says its line. The server answers that:
  its text is now the line and a `!`, and with the terminator it fills the buffer
  (`reaches_answered`).
* The second client greets the server. Its four letters come over the first four of that text, the
  text is as long as before, and there is no room for one more `!` (`serve_overflows`).

In this run the long line is the first that the first client says.
-/

namespace Labs
namespace EchoServer

open Lib

variable {c : Config} {b : Buffer} {s line rest : List UInt8} {i j : Fin c.clients} {st : State c}

/-- What a greeting finds behind a text that is longer. -/
theorem text_greeting (h : Text b s) (hlen : 4 ≤ s.length) :
    Text (recvfrom b (ascii "ping")) (ascii "ping" ++ s.drop 4) := by
  obtain ⟨hs, rest, hb⟩ := h
  have hping : NUL ∉ ascii "ping" := by decide
  refine ⟨by simpa [hping] using fun hm => hs (List.mem_of_mem_drop hm), rest, ?_⟩
  show (ascii "ping").take BUFFER_SIZE ++ b.bytes.drop 4 = _
  rw [hb, List.drop_append_of_le_length hlen]
  rfl

theorem serve_answers {request : List UInt8} {m : Net c} (hne : request ≠ [])
    (ht : Text (recvfrom b request) s) (hclosing : ¬ Closing s) (hlen : s.length + 2 ≤ BUFFER_SIZE) :
    ∃ b', ReplyTo s b'.bytes ∧ serve b i request m = (.recvfrom b', { m with
      requests := Function.update m.requests i none
      replies := Function.update m.replies i (some b'.bytes) }) := by
  obtain ⟨b', hb', hreply⟩ := strncat_text ht hlen
  exact ⟨b', hreply, (serve_text hne ht).2.2 b' hclosing hb'⟩

theorem serve_overflows {request : List UInt8} {m : Net c} (hne : request ≠ [])
    (ht : Text (recvfrom b request) s) (hclosing : ¬ Closing s)
    (hlen : BUFFER_SIZE ≤ s.length + 1) :
    (serve b i request m).1 = .outOfBounds := by
  have hnone := @strncat_eq_none (recvfrom b request) (by rw [ht.cstr_eq]; exact hlen)
  rw [(serve_text hne ht).2.1 hclosing hnone]

/-- The step of a party that is known. -/
theorem Reaches.party {p : Party c} {e : Event c} {pc : Place p} {m : Net c}
    (h : Reaches (step c) (fun _ _ => True) (init c) st)
    (hnext : program c p (st.pc p) st.mem e = some (pc, m, .skip)) :
    ∃ st', Reaches (step c) (fun _ _ => True) (init c) st' ∧ st'.pc p = pc ∧
      (∀ q, q ≠ p → st'.pc q = st.pc q) ∧ st'.mem = m := by
  obtain ⟨st', hstep, hrest⟩ := @Sys.exists_step _ _ _ _ _ _ _ (program c) st p e pc m hnext
  exact ⟨st', h.next trivial hstep, hrest⟩

/-- The greeting of a client, up to the step of the server. -/
theorem reaches_greeted (h : Reaches (step c) (fun _ _ => True) (init c) st)
    (hpc : st.pc (.client i) = ClientPlace.greet) :
    ∃ st', Reaches (step c) (fun _ _ => True) (init c) st' ∧
      st'.pc (.client i) = ClientPlace.greeted ∧ (∀ q, q ≠ .client i → st'.pc q = st.pc q) ∧
      st'.mem.requests i = some (ascii "ping") := by
  have hnext : program c (.client i) (st.pc (.client i)) st.mem .ok = some (ClientPlace.greeted,
      { st.mem with requests := Function.update st.mem.requests i (some (ascii "ping")) }, .skip) := by
    rw [hpc]
    rfl
  obtain ⟨st', hreach, hplace, hothers, hmem⟩ := Reaches.party h hnext
  exact ⟨st', hreach, hplace, hothers, by rw [hmem]; exact Function.update_self ..⟩

/-- The step of the server that answers. -/
theorem reaches_answered {d : List UInt8} (h : Reaches (step c) (fun _ _ => True) (init c) st)
    (hpc : st.pc .server = ServerPlace.recvfrom b) (hd : st.mem.requests i = some d) (hne : d ≠ [])
    (ht : Text (recvfrom b d) s) (hclosing : ¬ Closing s) (hlen : s.length + 2 ≤ BUFFER_SIZE) :
    ∃ st' b', Reaches (step c) (fun _ _ => True) (init c) st' ∧
      st'.pc .server = ServerPlace.recvfrom b' ∧ ReplyTo s b'.bytes ∧
      (∀ q, q ≠ .server → st'.pc q = st.pc q) ∧ st'.mem.replies i = some b'.bytes := by
  obtain ⟨b', hreply, hserve⟩ := @serve_answers c b s i d st.mem hne ht hclosing hlen
  have hnext : program c .server (st.pc .server) st.mem (.receive i) =
      some ((serve b i d st.mem).1, (serve b i d st.mem).2, .skip) := by
    rw [hpc]
    show (st.mem.requests i).map _ = _
    rw [hd]
    rfl
  rw [hserve] at hnext
  obtain ⟨st', hreach, hplace, hothers, hmem⟩ := Reaches.party h hnext
  exact ⟨st', b', hreach, hplace, hreply, hothers, by rw [hmem]; exact Function.update_self ..⟩

/-- **After a line that fills the buffer, the greeting of another client overflows it.** -/
theorem overflows_of_long_line (hij : i ≠ j)
    (hline : fgets BUFFER_SIZE (c.input i) = some (line, rest)) (hfree : NUL ∉ c.input i)
    (hlen : line.length + 1 = BUFFER_SIZE) (hclosing : ¬ Closing line.dropLast) :
    ∃ st, Reaches (step c) (fun _ _ => True) (init c) st ∧
      st.pc .server = ServerPlace.outOfBounds := by
  have hsize : line.dropLast.length + 2 = BUFFER_SIZE := by
    rw [List.length_dropLast]
    unfold BUFFER_SIZE at hlen ⊢
    omega
  -- the first client greets the server and is answered
  obtain ⟨st₁, h₁, hi₁, hothers₁, hd₁⟩ :=
    @reaches_greeted c i (init c) Reaches.start rfl
  have hserver₁ : st₁.pc .server = ServerPlace.recvfrom (.zero _) := hothers₁ _ (by simp)
  obtain ⟨st₂, b₂, h₂, hserver₂, hreply₂, hothers₂, hr₂⟩ := reaches_answered h₁ hserver₁ hd₁
    (by simp [ascii]) text_first_ping (ping_not_closing List.prefix_rfl) (by decide)
  have hi₂ : st₂.pc (.client i) = ClientPlace.greeted := (hothers₂ _ (by simp)).trans hi₁
  have hnext₂ : program c (.client i) (st₂.pc (.client i)) st₂.mem .ok = some
      (ClientPlace.enter ⟨recvfrom (.zero _) b₂.bytes, c.input i, [], []⟩,
        { st₂.mem with replies := Function.update st₂.mem.replies i none }, .skip) := by
    rw [hi₂]
    show (st₂.mem.replies i).map _ = _
    rw [hr₂]
    rfl
  obtain ⟨st₃, h₃, hi₃, hothers₃, hmem₃⟩ := Reaches.party h₂ hnext₂
  -- it says the line
  have htold : next (ascii "ping" ++ ascii "!") (c.input i) = line.dropLast := by
    simp [next, hline]
  obtain ⟨b₄, hsay, htext₄, -⟩ := @say_spec (ascii "ping" ++ ascii "!")
    ⟨recvfrom (.zero _) b₂.bytes, c.input i, [], []⟩ hreply₂.text (Or.inl (by simp [ascii])) hfree
  rw [htold] at hsay htext₄
  have hnext₃ : program c (.client i) (st₃.pc (.client i)) st₃.mem .ok = some
      (ClientPlace.recv ⟨b₄, behind 1 (c.input i), [line.dropLast], []⟩,
        { st₃.mem with requests := Function.update st₃.mem.requests i (some b₄.bytes) }, .skip) := by
    have hclient : client i (ClientPlace.enter ⟨recvfrom (.zero _) b₂.bytes, c.input i, [], []⟩)
        st₃.mem .ok = some (ClientPlace.recv ⟨b₄, behind 1 (c.input i), [line.dropLast], []⟩,
          { st₃.mem with requests := Function.update st₃.mem.requests i (some b₄.bytes) }, .skip) := by
      rw [client, hsay]
      simp [hclosing]
    rw [hi₃]
    exact hclient
  obtain ⟨st₄, h₄, hi₄, hothers₄, hmem₄⟩ := Reaches.party h₃ hnext₃
  have hserver₄ : st₄.pc .server = ServerPlace.recvfrom b₂ :=
    (hothers₄ _ (by simp)).trans ((hothers₃ _ (by simp)).trans hserver₂)
  have hd₄ : st₄.mem.requests i = some b₄.bytes := by
    rw [hmem₄]
    exact Function.update_self ..
  have hne₄ : b₄.bytes ≠ [] := by
    intro hnil
    have := htext₄.mem
    rw [hnil] at this
    cases this
  obtain ⟨st₅, b₅, h₅, hserver₅, hreply₅, hothers₅, -⟩ := reaches_answered h₄ hserver₄ hd₄ hne₄
    (text_whole htext₄ b₂) hclosing hsize.le
  -- another client greets the server
  have hj₅ : st₅.pc (.client j) = ClientPlace.greet := by
    have hji : Party.client j ≠ Party.client i := by simpa using hij.symm
    rw [hothers₅ _ (by simp), hothers₄ _ hji, hothers₃ _ hji, hothers₂ _ (by simp), hothers₁ _ hji]
    rfl
  obtain ⟨st₆, h₆, -, hothers₆, hd₆⟩ := reaches_greeted h₅ hj₅
  have hserver₆ : st₆.pc .server = ServerPlace.recvfrom b₅ := (hothers₆ _ (by simp)).trans hserver₅
  have htext₅ : Text b₅ (line.dropLast ++ ascii "!") := by
    obtain ⟨-, hs, rest, hb⟩ := hreply₅
    have hbang : NUL ∉ ascii "!" := by decide
    exact ⟨by simp [hs, hbang], rest, hb⟩
  have hbang : (ascii "!").length = 1 := rfl
  have hping : (ascii "ping").length = 4 := rfl
  have hfull : (line.dropLast ++ ascii "!").length + 1 = BUFFER_SIZE := by
    rw [List.length_append, hbang]
    omega
  have hover := @serve_overflows c b₅ _ j (ascii "ping") st₆.mem (by simp [ascii])
    (text_greeting htext₅ (by unfold BUFFER_SIZE at hfull; omega))
    (ping_not_closing (List.prefix_append _ _)) (by
      rw [List.length_append, List.length_drop, hping]
      unfold BUFFER_SIZE at hfull ⊢
      omega)
  have hnext₆ : program c .server (st₆.pc .server) st₆.mem (.receive j) =
      some (ServerPlace.outOfBounds, (serve b₅ j (ascii "ping") st₆.mem).2, .skip) := by
    rw [hserver₆, ← hover]
    show (st₆.mem.requests j).map _ = _
    rw [hd₆]
    rfl
  obtain ⟨st₇, h₇, hserver₇, -⟩ := Reaches.party h₆ hnext₆
  exact ⟨st₇, h₇, hserver₇⟩

/-- The letter `a`, `n` times. -/
def letters (n : Nat) : List UInt8 := List.replicate n 97

theorem letters_free (n : Nat) : NEWLINE ∉ letters n ∧ NUL ∉ letters n := by
  simp [letters, List.mem_replicate, NEWLINE, NUL]

theorem fgets_letters (n : Nat) :
    fgets (n + 1) (letters n ++ [NEWLINE]) = some (letters n, [NEWLINE]) := by
  have hlen : (letters n).length = n := List.length_replicate
  unfold fgets
  rw [if_neg (by simp), Nat.add_sub_cancel, takeLine_append (letters_free n).1,
    List.take_left' hlen]
  simp

theorem letters_not_closing (n : Nat) : ¬ Closing (letters (n + 2)).dropLast := by
  simp [letters, Closing, ascii, List.replicate_succ]

/-- A line of 1023 letters, and a second client. -/
theorem overflows_of_letters :
    ∃ st, Reaches (step ⟨2, fun _ => letters 1023 ++ [NEWLINE]⟩) (fun _ _ => True)
      (init ⟨2, fun _ => letters 1023 ++ [NEWLINE]⟩) st ∧
      st.pc .server = ServerPlace.outOfBounds :=
  @overflows_of_long_line ⟨2, fun _ => letters 1023 ++ [NEWLINE]⟩ _ _ 0 1 (by decide)
    (fgets_letters 1023)
    (fun hm => (List.mem_append.mp hm).elim (letters_free 1023).2 (by decide))
    (by rw [letters, List.length_replicate]; rfl) (letters_not_closing 1021)

end EchoServer
end Labs
