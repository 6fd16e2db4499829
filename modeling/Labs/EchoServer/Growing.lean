import Labs.EchoServer.Buffer

/-!
# The answer that grows

The server of `LAB_17/task_raw_udp/src/server.c`. Its clients send their text without a terminator,
so what is answered ends where the text before it ended, or later: each answer is longer than the
one before.

A history has its last datagram in front. A `recvfrom` that fails ends the loop, and so the history;
a `sendto` that fails is only reported.
-/

namespace Labs
namespace EchoServer

open Lib

variable {b b' : Buffer} {s datagram : List UInt8} {history : List (List UInt8)}

/-- The buffer after a history, as it is sent to the last client. -/
def rawServer : List (List UInt8) → Option Buffer
  | [] => some (.zero BUFFER_SIZE)
  | datagram :: history => (rawServer history).bind fun b => strncat (recvfrom b datagram)

/-! ## 1. The text of an answer -/

/-- The text in the buffer: a datagram covers the front of the text before it. -/
def text : List (List UInt8) → List UInt8
  | [] => []
  | datagram :: history => datagram ++ (text history).drop datagram.length ++ ascii "!"

theorem length_text_cons :
    (text (datagram :: history)).length = max datagram.length (text history).length + 1 := by
  have hbang : (ascii "!").length = 1 := rfl
  simp only [text, List.length_append, List.length_drop, hbang]
  omega

/-- Every datagram leaves a text that has grown with each one after it. -/
theorem lt_length_text_iff {n : Nat} : n < (text history).length ↔
    ∃ i datagram, history[i]? = some datagram ∧ n ≤ datagram.length + i := by
  induction history generalizing n with
  | nil => simp [text]
  | cons d history ih =>
    rw [length_text_cons]
    constructor
    · intro h
      by_cases hd : n ≤ d.length
      · exact ⟨0, d, rfl, hd⟩
      · obtain ⟨i, e, hi, he⟩ := (@ih (n - 1)).mp (by omega)
        exact ⟨i + 1, e, hi, by omega⟩
    · intro h
      obtain ⟨i, e, hi, he⟩ := h
      cases i with
      | zero =>
        obtain rfl : d = e := by simpa using hi
        omega
      | succ i =>
        have := (@ih (n - 1)).mpr ⟨i, e, hi, by omega⟩
        omega

theorem text_nul_free (h : ∀ d ∈ history, NUL ∉ d) : NUL ∉ text history := by
  induction history with
  | nil => simp [text]
  | cons d history ih =>
    obtain ⟨hd, hrest⟩ := List.forall_mem_cons.mp h
    have hdrop : NUL ∉ (text history).drop d.length := fun hm => ih hrest (List.mem_of_mem_drop hm)
    have hbang : NUL ∉ ascii "!" := by decide
    simp [text, hd, hdrop, hbang]

/-! ## 2. The server -/

/-- Behind the text there are zeros only. -/
def Padded (s : List UInt8) (b : Buffer) : Prop :=
  s.length < BUFFER_SIZE ∧ b.bytes = s ++ List.replicate (BUFFER_SIZE - s.length) NUL

theorem Padded.cstr_eq (h : Padded s b) (hs : NUL ∉ s) : cstr b.bytes = s := by
  rw [h.2, cstr_append_replicate hs]

theorem Padded.recvfrom (h : Padded s b) :
    (recvfrom b datagram).bytes = (datagram ++ s.drop datagram.length).take BUFFER_SIZE ++
      List.replicate (BUFFER_SIZE - max datagram.length s.length) NUL := by
  obtain ⟨hlt, hb⟩ := h
  show datagram.take BUFFER_SIZE ++ b.bytes.drop datagram.length = _
  rw [hb, List.drop_append, List.drop_replicate]
  by_cases hlong : datagram.length ≤ s.length
  · have hfits : (datagram ++ s.drop datagram.length).length ≤ BUFFER_SIZE := by
      simp only [List.length_append, List.length_drop]
      omega
    have hd : datagram.take BUFFER_SIZE = datagram := List.take_of_length_le (by omega)
    rw [hd, List.take_of_length_le hfits, max_eq_right hlong, List.append_assoc]
    congr 3
    omega
  · have hs : s.drop datagram.length = [] := List.drop_eq_nil_of_le (by omega)
    rw [hs, max_eq_left (by omega), List.nil_append, List.append_nil]
    congr 2
    omega

/-- **A datagram is answered with the text**, unless there is no room for it. -/
theorem strncat_recvfrom (h : Padded s b) (hs : NUL ∉ s) (hd : NUL ∉ datagram) :
    (max datagram.length s.length + 1 < BUFFER_SIZE → ∃ b', strncat (recvfrom b datagram) = some b' ∧
        Padded (datagram ++ s.drop datagram.length ++ ascii "!") b') ∧
      (BUFFER_SIZE ≤ max datagram.length s.length + 1 →
        strncat (recvfrom b datagram) = none) := by
  have hbytes := @Padded.recvfrom b s datagram h
  have hlen : (datagram ++ s.drop datagram.length).length = max datagram.length s.length := by
    simp only [List.length_append, List.length_drop]
    omega
  have hfree : NUL ∉ datagram ++ s.drop datagram.length := by
    simpa [hd] using fun hm => hs (List.mem_of_mem_drop hm)
  constructor
  · intro hroom
    obtain ⟨n, hn⟩ : ∃ n, BUFFER_SIZE - max datagram.length s.length = n + 2 :=
      ⟨BUFFER_SIZE - max datagram.length s.length - 2, by omega⟩
    rw [List.take_of_length_le (by omega), hn, List.replicate_succ] at hbytes
    obtain ⟨b', hb', hbytes'⟩ := strncat_eq_some hfree hbytes (by omega)
    have hbang : (ascii "!").length = 1 := rfl
    refine ⟨b', hb', ?_, ?_⟩
    · rw [List.length_append, hlen, hbang]
      exact hroom
    · rw [hbytes', List.length_append, hlen, hbang, List.tail_replicate, ← List.replicate_succ]
      congr 2
      omega
  · intro hfull
    apply strncat_eq_none
    rw [hbytes, cstr_append_replicate fun hm => hfree (List.mem_of_mem_take hm), List.length_take,
      hlen]
    omega

/-- **The server runs until the text fills the buffer**, and until then it sends the text. -/
theorem rawServer_spec (h : ∀ d ∈ history, NUL ∉ d) :
    ((text history).length < BUFFER_SIZE → ∃ b, rawServer history = some b ∧ Padded (text history) b) ∧
      (BUFFER_SIZE ≤ (text history).length → rawServer history = none) := by
  induction history with
  | nil => exact ⟨fun _ => ⟨_, rfl, by decide, rfl⟩, fun hle => absurd hle (by decide)⟩
  | cons d history ih =>
    obtain ⟨hd, hrest⟩ := List.forall_mem_cons.mp h
    obtain ⟨hruns, hfails⟩ := ih hrest
    rw [length_text_cons]
    by_cases hprev : (text history).length < BUFFER_SIZE
    · obtain ⟨b, hb, hpadded⟩ := hruns hprev
      rw [rawServer, hb]
      exact strncat_recvfrom hpadded (text_nul_free hrest) hd
    · refine ⟨fun hlt => absurd hlt (by omega), fun _ => ?_⟩
      rw [rawServer, hfails (Nat.not_lt.mp hprev)]
      rfl

/-- **The server writes behind its buffer** as soon as some datagram and those after it are too many
    bytes, and it answers the last one as it should iff no earlier one has left a longer text. -/
theorem answers_iff (h : ∀ d ∈ datagram :: history, NUL ∉ d) :
    (rawServer (datagram :: history) = none ↔
      ∃ i d, (datagram :: history)[i]? = some d ∧ BUFFER_SIZE ≤ d.length + i + 1) ∧
    ∀ b, rawServer (datagram :: history) = some b →
      (cstr b.bytes = datagram ++ ascii "!" ↔
        ∀ i d, history[i]? = some d → d.length + i < datagram.length) := by
  obtain ⟨hruns, hfails⟩ := rawServer_spec h
  have hfull : BUFFER_SIZE ≤ (text (datagram :: history)).length ↔
      ∃ i d, (datagram :: history)[i]? = some d ∧ BUFFER_SIZE ≤ d.length + i + 1 := by
    have hpos : BUFFER_SIZE ≤ (text (datagram :: history)).length ↔
        BUFFER_SIZE - 1 < (text (datagram :: history)).length := by
      unfold BUFFER_SIZE
      omega
    rw [hpos, lt_length_text_iff]
    simp only [Nat.sub_le_iff_le_add]
  constructor
  · rw [← hfull]
    refine ⟨fun hnone => ?_, hfails⟩
    by_contra hlt
    obtain ⟨b, hb, -⟩ := hruns (Nat.not_le.mp hlt)
    cases hnone.symm.trans hb
  · intro b hb
    have hlt : (text (datagram :: history)).length < BUFFER_SIZE := by
      by_contra hle
      cases (hfails (Nat.not_lt.mp hle)).symm.trans hb
    obtain ⟨b', hb', hpadded⟩ := hruns hlt
    cases hb.symm.trans hb'
    rw [hpadded.cstr_eq (text_nul_free h)]
    have hdrop : text (datagram :: history) = datagram ++ ascii "!" ↔
        (text history).length ≤ datagram.length := by
      rw [← List.drop_eq_nil_iff, text]
      simp
    rw [hdrop, ← not_lt, lt_length_text_iff]
    push Not
    rfl

/-- `Hell` leaves `Hell!`, so `Hello` is answered as it should be, and `Bye` behind it is not. -/
theorem answers_iff_hello : ∃ b b', rawServer [ascii "Hello", ascii "Hell"] = some b ∧
    cstr b.bytes = ascii "Hello" ++ ascii "!" ∧
    rawServer [ascii "Bye", ascii "Hello", ascii "Hell"] = some b' ∧
    cstr b'.bytes ≠ ascii "Bye" ++ ascii "!" := by
  have hsome : ∀ d history, (∀ d' ∈ d :: history, NUL ∉ d' ∧ d'.length ≤ 5) → history.length ≤ 2 →
      ∃ b, rawServer (d :: history) = some b := by
    intro d history hshort hcount
    refine Option.ne_none_iff_exists'.mp fun hnone => ?_
    obtain ⟨i, d', hi, hlong⟩ := (answers_iff fun d' hd' => (hshort d' hd').1).1.mp hnone
    obtain ⟨hlt, rfl⟩ := List.getElem?_eq_some_iff.mp hi
    have hle := (hshort _ (List.getElem_mem hlt)).2
    rw [List.length_cons] at hlt
    unfold BUFFER_SIZE at hlong
    omega
  obtain ⟨b, hb⟩ := hsome (ascii "Hello") [ascii "Hell"] (by decide) (by decide)
  obtain ⟨b', hb'⟩ := hsome (ascii "Bye") [ascii "Hello", ascii "Hell"] (by decide) (by decide)
  refine ⟨b, b', hb, ((answers_iff (by decide)).2 b hb).mpr fun i d hi => ?_, hb', fun hbye => ?_⟩
  · obtain ⟨hlt, rfl⟩ := List.getElem?_eq_some_iff.mp hi
    obtain rfl : i = 0 := Nat.lt_one_iff.mp hlt
    exact (by decide : (ascii "Hell").length + 0 < (ascii "Hello").length)
  · exact absurd (((answers_iff (by decide)).2 b' hb').mp hbye 0 _ rfl) (by decide)

end EchoServer
end Labs
