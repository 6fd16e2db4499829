import Labs.EchoServer.Whose

/-!
# What a client of the server says in full

`texts` are the lines in front of the first that closes the conversation, and `Ends` says that there
is one. A client that has left has said its `texts` (`said_eq_texts`), and it says no more than them
(`length_said_le`). Without a line that closes the conversation it comes to the end of its input,
and from there on says the text once more that it said last, as the server has put a `!` behind it
and the client cuts off one byte.
-/

namespace Labs
namespace TcpEcho

open Lib EchoServer

variable {inp t : List UInt8} {said : List (List UInt8)} {s : List UInt8} {k : Client}

/-! ## 1. Lines -/

theorem getElem?_lines {j n : Nat} (h : j < n) :
    (lines n inp)[j]? = (lines 1 (behind j inp)).head? := by
  induction n generalizing j inp with
  | zero => exact absurd h (Nat.not_lt_zero j)
  | succ n ih =>
    cases hread : fgets BUFFER_SIZE inp with
    | none =>
      cases j with
      | zero => simp [lines, behind, hread]
      | succ j => simp [lines, behind, hread]
    | some p =>
      cases j with
      | zero => simp [lines, behind, hread]
      | succ j =>
        have hrest : (lines (n + 1) inp)[j + 1]? = (lines n p.2)[j]? := by simp [lines, hread]
        have hbehind : behind (j + 1) inp = behind j p.2 := by simp [behind, hread]
        rw [hrest, hbehind]
        exact ih (Nat.lt_of_succ_lt_succ h)

/-- A line takes a byte at least. -/
theorem length_lines_le (n : Nat) (inp : List UInt8) : (lines n inp).length ≤ inp.length := by
  induction n generalizing inp with
  | zero => exact Nat.zero_le _
  | succ n ih =>
    cases hread : fgets BUFFER_SIZE inp with
    | none => simp [lines, hread]
    | some p =>
      have hless := fgets_rest_length_lt (by decide) hread
      have hlines : (lines (n + 1) inp).length = (lines n p.2).length + 1 := by simp [lines, hread]
      have := ih p.2
      omega

theorem lines_eq_take {m n : Nat} (h : m ≤ n) (inp : List UInt8) :
    lines m inp = (lines n inp).take m := by
  induction m generalizing n inp with
  | zero => rfl
  | succ m ih =>
    obtain ⟨n, rfl⟩ : ∃ k, n = k + 1 := ⟨n - 1, by omega⟩
    cases hread : fgets BUFFER_SIZE inp with
    | none => simp [lines, hread]
    | some p => simp [lines, hread, ih (Nat.le_of_succ_le_succ h)]

theorem lines_prefix {m n : Nat} (h : m ≤ n) (inp : List UInt8) : lines m inp <+: lines n inp :=
  lines_eq_take h inp ▸ List.take_prefix m _

/-! ## 2. The conversation -/

def texts (inp : List UInt8) : List (List UInt8) :=
  (lines inp.length inp).takeWhile fun s => ¬ Closing s

def Ends (inp : List UInt8) : Prop := ∃ s ∈ lines inp.length inp, Closing s

instance (inp : List UInt8) : Decidable (Ends inp) := inferInstanceAs (Decidable (∃ s ∈ _, _))

/-- The lines up to the first that closes the conversation are among those of `texts`. -/
theorem texts_eq (hlines : lines (said.length + 1) inp = said ++ [s])
    (hopen : ∀ s ∈ said, ¬ Closing s) (hclosing : Closing s) : texts inp = said ∧ Ends inp := by
  have hlen : said.length + 1 ≤ inp.length := by
    have := length_lines_le (said.length + 1) inp
    rw [hlines, List.length_append, List.length_singleton] at this
    exact this
  obtain ⟨rest, hall⟩ := lines_prefix hlen inp
  rw [hlines] at hall
  refine ⟨?_, s, by rw [← hall]; simp, hclosing⟩
  rw [texts, ← hall, List.append_assoc, List.takeWhile_append_of_pos fun s hs => by
    simpa using hopen s hs]
  simp [hclosing]

theorem texts_front (inp : List UInt8) : texts inp <+: lines inp.length inp :=
  List.takeWhile_prefix _

theorem lines_texts (inp : List UInt8) : lines (texts inp).length inp = texts inp := by
  have hlen := (texts_front inp).length_le.trans (length_lines_le inp.length inp)
  rw [lines_eq_take hlen, ← List.prefix_iff_eq_take.mp (texts_front inp)]

theorem exists_closing_line (h : Ends inp) :
    ∃ s, (lines inp.length inp)[(texts inp).length]? = some s ∧ Closing s := by
  obtain ⟨s, hs, hclosing⟩ := h
  have hsplit := @List.takeWhile_append_dropWhile _ (fun s => decide (¬ Closing s))
    (lines inp.length inp)
  cases hdrop : (lines inp.length inp).dropWhile fun s => decide (¬ Closing s) with
  | nil =>
    have hall := List.dropWhile_eq_nil_iff.mp hdrop s hs
    simp [hclosing] at hall
  | cons s₀ rest =>
    rw [hdrop] at hsplit
    refine ⟨s₀, ?_, ?_⟩
    · rw [← hsplit, texts, List.getElem?_append_right (le_refl _), Nat.sub_self]
      rfl
    · have := List.head?_dropWhile_not (fun s => decide (¬ Closing s)) (lines inp.length inp)
      rw [hdrop] at this
      simpa using this

theorem length_said_le (h : Ends inp) (hlines : lines said.length inp <+: said)
    (hopen : ∀ s ∈ said, ¬ Closing s) : said.length ≤ (texts inp).length := by
  by_contra hlong
  obtain ⟨s, hs, hclosing⟩ := exists_closing_line h
  -- the line that closes the conversation is among those that were said
  have hlt : (texts inp).length < inp.length :=
    Nat.lt_of_lt_of_le (List.getElem?_eq_some_iff.mp hs).1 (length_lines_le _ _)
  rw [getElem?_lines hlt, ← getElem?_lines (Nat.lt_of_not_le hlong)] at hs
  exact hopen s (hlines.subset (List.mem_of_getElem? hs)) hclosing

/-! ## 3. What it says next -/

/-- The text of a client's buffer, the answer to what it has said last. -/
def shown (said : List (List UInt8)) : List UInt8 :=
  (said.getLast?.map fun s => s ++ ascii "!").getD []

theorem shown_append (said : List (List UInt8)) (s : List UInt8) :
    shown (said ++ [s]) = s ++ ascii "!" := by
  simp [shown]

theorem shown_ne_nil (h : said ≠ []) : shown said ≠ [] := by
  obtain ⟨front, s, rfl⟩ := (List.eq_nil_or_concat' said).resolve_left h
  rw [shown_append]
  simp [ascii]

/-- Where the next text closes the conversation, it is a line, and the `texts` are said. -/
theorem said_eq_texts (hspoken : Spoken inp 0 k) (hne : shown k.said ≠ [] ∨ k.input ≠ [])
    (hopen : ∀ s ∈ k.said, ¬ Closing s) (hclosing : Closing (next (shown k.said) k.input)) :
    texts inp = k.said ∧ Ends inp := by
  cases hread : fgets BUFFER_SIZE k.input with
  | none =>
    have hend : k.input = [] := by
      by_contra hsome
      simp [fgets, hsome] at hread
    have hsaid : k.said ≠ [] := by
      intro hnil
      rw [hnil] at hne
      exact hne.elim (fun h => h rfl) fun h => h hend
    obtain ⟨front, s, hs⟩ := (List.eq_nil_or_concat' k.said).resolve_left hsaid
    have hagain : next (shown k.said) k.input = s := by
      rw [hs, shown_append]
      simp [next, hread, ascii]
    rw [hagain] at hclosing
    exact absurd hclosing (hopen s (by rw [hs]; simp))
  | some p =>
    have hline : lines 1 k.input = [next (shown k.said) k.input] := by simp [lines, next, hread]
    have hall := @length_lines k.said.length inp (by rw [← hspoken.input_eq, hread]; simp)
    refine texts_eq ?_ hopen hclosing
    rw [lines_succ, ← hspoken.input_eq, hline, hspoken.said_of_lines.eq_of_length hall]

end TcpEcho
end Labs
