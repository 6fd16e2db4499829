import Labs.Calculator.Program

/-!
# What `getLine` makes of a stream

The loop of `getLine` stops at the last element of `buf`, at a newline, or at `EOF`; and `EOF` is looked
for in the `char` that has been stored, where the byte `0xFF` is the same. Behind the loop one
element more is written, unless that is `EOF`. So a line that leaves no room for its newline and the
terminator is written behind `buf`, the byte `0xFF` ends the input, and at the end of the input no
terminator is written.

## Four ways out of a loop

`wayOut` goes through the loop once and for all. Each of its cases says how the input is cut, what
the loop reads and what `getchar` has answered, and the two sides of the equivalence are compared
case by case.

What was answered is not what is stored. The end of the input and the byte `0xFF` are the same
`char` in `buf`, and of the answers only the former is `none`. So a `0xFF` is a false end of the
input in every case, and a true end is found in every case. What can go wrong there is the
terminator: none is written, and the string ends at a NUL that the input or the old `buf` has in the
right place (`reads_of_ends`).
-/

namespace Labs
namespace Calculator

open Lib

variable {buf inp body rest : List UInt8} {n : Nat}

/-- What `getchar` answers in the loop, up to the character that ends it; there is none at the end of
    the input. -/
def answers : Nat → List UInt8 → List (Option UInt8)
  | 0, _ => []
  | _ + 1, [] => [none]
  | n + 1, b :: inp => some b :: if b = EOF ∨ b = NEWLINE then [] else answers n inp

/-- `buf` is written inside its bounds and holds a string, and the result is zero exactly if the end of
    the input was reached. -/
def ReadsLine (buf inp : List UInt8) : Prop :=
  ∃ more buf' rest, getLine buf inp = .ok (more, buf', rest) ∧ buf'.length = buf.length ∧
    NUL ∈ buf' ∧ (more = false ↔ none ∈ answers (buf.length - 1) inp)

/-- There is a newline in front of every `0xFF`, with room for it and the terminator. -/
def HasLine (buf inp : List UInt8) : Prop :=
  ∃ body rest, inp = body ++ NEWLINE :: rest ∧ body.length < buf.length - 1 ∧ EOF ∉ body

/-- The input ends before its line does, and a terminator is there. -/
structure EndsInput (buf inp : List UInt8) : Prop where
  room : inp.length < buf.length - 1
  no_newline : NEWLINE ∉ inp
  no_eof : EOF ∉ inp
  terminated : NUL ∈ inp ∨ NUL ∈ buf.drop (inp.length + 1)

/-! ## 1. The loop -/

/-- Nothing in it ends the loop. -/
def Plain (bs : List UInt8) : Prop := ∀ b ∈ bs, b ≠ EOF ∧ b ≠ NEWLINE

/-- The ways out of the loop: a newline, the byte `0xFF`, the end of the input, and the end of `buf`. -/
inductive WayOut (n : Nat) (inp : List UInt8) : Prop
  | newline (body rest : List UInt8) (hinp : inp = body ++ NEWLINE :: rest) (hlen : body.length < n)
      (hplain : Plain body) (hscan : scanLine n inp = (body, some NEWLINE, rest))
      (hanswers : answers n inp = (body ++ [NEWLINE]).map some)
  | eof (body rest : List UInt8) (hinp : inp = body ++ EOF :: rest)
      (hscan : scanLine n inp = (body, some EOF, rest))
      (hanswers : answers n inp = (body ++ [EOF]).map some)
  | ends (hlen : inp.length < n) (hplain : Plain inp) (hscan : scanLine n inp = (inp, some EOF, []))
      (hanswers : answers n inp = inp.map some ++ [none])
  | full (hlen : n ≤ inp.length) (hscan : scanLine n inp = (inp.take n, none, inp.drop n))
      (hanswers : answers n inp = (inp.take n).map some)

theorem wayOut (n : Nat) (inp : List UInt8) : WayOut n inp := by
  induction n generalizing inp with
  | zero => exact .full (Nat.zero_le _) rfl rfl
  | succ n ih =>
    cases inp with
    | nil => exact .ends (Nat.succ_pos n) (fun _ h => nomatch h) rfl rfl
    | cons b inp =>
      by_cases hb : b = EOF ∨ b = NEWLINE
      · have hscan : scanLine (n + 1) (b :: inp) = ([], some b, inp) := if_pos hb
        have hanswers : answers (n + 1) (b :: inp) = [some b] := by rw [answers, if_pos hb]
        rcases hb with rfl | rfl
        · exact .eof [] inp rfl hscan hanswers
        · exact .newline [] inp rfl (Nat.succ_pos n) (fun _ h => nomatch h) hscan hanswers
      · have hscan : ∀ {body stop rest}, scanLine n inp = (body, stop, rest) →
            scanLine (n + 1) (b :: inp) = (b :: body, stop, rest) := by
          intro body stop rest h
          rw [scanLine, if_neg hb, h]
        have hanswers : answers (n + 1) (b :: inp) = some b :: answers n inp := by
          rw [answers, if_neg hb]
        cases ih inp with
        | newline body rest hinp hlen hplain hs ha =>
          exact .newline (b :: body) rest (congrArg (b :: ·) hinp) (Nat.succ_lt_succ hlen)
            (List.forall_mem_cons.mpr ⟨not_or.mp hb, hplain⟩) (hscan hs)
            (hanswers.trans (congrArg _ ha))
        | eof body rest hinp hs ha =>
          exact .eof (b :: body) rest (congrArg (b :: ·) hinp) (hscan hs)
            (hanswers.trans (congrArg _ ha))
        | ends hlen hplain hs ha =>
          exact .ends (Nat.succ_lt_succ hlen) (List.forall_mem_cons.mpr ⟨not_or.mp hb, hplain⟩)
            (hscan hs) (hanswers.trans (congrArg _ ha))
        | full hlen hs ha =>
          exact .full (Nat.succ_le_succ hlen) (hscan hs) (hanswers.trans (congrArg _ ha))

/-- The first newline ends the loop, if no `0xFF` does before. -/
theorem scanLine_newline (hlen : body.length < n) (heof : EOF ∉ body) :
    (scanLine n (body ++ NEWLINE :: rest)).2.1 = some NEWLINE := by
  induction body generalizing n with
  | nil =>
    obtain ⟨n, rfl⟩ := Nat.exists_eq_add_one.mpr hlen
    rw [List.nil_append, scanLine, if_pos (.inr rfl)]
  | cons b body ih =>
    obtain ⟨n, rfl⟩ := Nat.exists_eq_add_one.mpr (Nat.zero_lt_of_lt hlen)
    rw [List.mem_cons, not_or] at heof
    rw [List.cons_append, scanLine]
    split
    · rename_i hb
      rw [hb.resolve_left (Ne.symm heof.1)]
    · exact ih (Nat.lt_of_succ_lt_succ hlen) heof.2

theorem stop_of_hasLine (h : HasLine buf inp) :
    (scanLine (buf.length - 1) inp).2.1 = some NEWLINE := by
  obtain ⟨body, rest, rfl, hlen, heof⟩ := h
  exact scanLine_newline hlen heof

/-! ## 2. The call -/

theorem none_notMem_map (bs : List UInt8) : none ∉ bs.map some := by
  intro h
  obtain ⟨b, -, hb⟩ := List.mem_map.mp h
  cases hb

theorem getLine_newline (hscan : scanLine (buf.length - 1) inp = (body, some NEWLINE, rest)) :
    getLine buf inp =
      .ok (true, body ++ NEWLINE :: NUL :: buf.drop (body.length + 2), rest) := by
  unfold getLine
  rw [hscan]
  rfl

theorem getLine_eof (hscan : scanLine (buf.length - 1) inp = (body, some EOF, rest)) :
    getLine buf inp = .ok (false, body ++ EOF :: buf.drop (body.length + 1), rest) := by
  unfold getLine
  rw [hscan]
  rfl

/-- A line that fills `buf` is never read. -/
theorem not_reads_of_full (hscan : scanLine (buf.length - 1) inp = (body, none, rest))
    (hanswers : none ∉ answers (buf.length - 1) inp) : ¬ ReadsLine buf inp := by
  rintro ⟨more, buf', rest', hget, -, -, hmore⟩
  unfold getLine at hget
  rw [hscan] at hget
  have hget : (if ((body ++ buf.drop body.length).set 0 NUL).getD body.length NUL = EOF then
    Except.ok (false, (body ++ buf.drop body.length).set 0 NUL, rest)
      else .error Crash.outOfBounds) = .ok (more, buf', rest') := hget
  split at hget
  · cases hget
    exact hanswers (hmore.mp rfl)
  · cases hget

theorem Plain.no_newline {bs : List UInt8} (h : Plain bs) : NEWLINE ∉ bs := fun hm => (h _ hm).2 rfl

theorem Plain.no_eof {bs : List UInt8} (h : Plain bs) : EOF ∉ bs := fun hm => (h _ hm).1 rfl

/-- At the end of the input the terminator is one that was there before. -/
theorem reads_of_ends (hlen : inp.length < buf.length - 1)
    (hscan : scanLine (buf.length - 1) inp = (inp, some EOF, []))
    (hanswers : none ∈ answers (buf.length - 1) inp) :
    ReadsLine buf inp ↔ NUL ∈ inp ∨ NUL ∈ buf.drop (inp.length + 1) := by
  have hget := getLine_eof hscan
  have hmem : NUL ∈ inp ++ EOF :: buf.drop (inp.length + 1) ↔
      NUL ∈ inp ∨ NUL ∈ buf.drop (inp.length + 1) := by
    rw [List.mem_append, List.mem_cons, or_iff_right (by decide : ¬ NUL = EOF)]
  constructor
  · rintro ⟨more, buf', rest', hget', -, hnul, -⟩
    cases hget.symm.trans hget'
    exact hmem.mp hnul
  · intro hnul
    refine ⟨false, _, _, hget, ?_, hmem.mpr hnul, iff_of_true rfl hanswers⟩
    rw [List.length_append, List.length_cons, List.length_drop]
    omega

/-- **`getLine` does what it should exactly if it finds a line with its newline, before any `0xFF` and
    with room for it, or the end of the input and a terminator behind it.** -/
theorem reads_line_iff (buf inp : List UInt8) :
    ReadsLine buf inp ↔ HasLine buf inp ∨ EndsInput buf inp := by
  cases wayOut (buf.length - 1) inp with
  | newline body rest hinp hlen hplain hscan hanswers =>
    have hno : none ∉ answers (buf.length - 1) inp := hanswers ▸ none_notMem_map _
    refine iff_of_true ⟨true, _, rest, getLine_newline hscan, ?_, by simp, ?_⟩
      (.inl ⟨body, rest, hinp, hlen, hplain.no_eof⟩)
    · simp only [List.length_append, List.length_cons, List.length_drop]
      omega
    · exact iff_of_false (nomatch ·) hno
  | eof body rest hinp hscan hanswers =>
    have hno : none ∉ answers (buf.length - 1) inp := hanswers ▸ none_notMem_map _
    constructor
    · rintro ⟨more, buf', rest', hget, -, -, hmore⟩
      cases (getLine_eof hscan).symm.trans hget
      exact absurd (hmore.mp rfl) hno
    · rintro (hline | hends)
      · have hstop := stop_of_hasLine hline
        rw [hscan] at hstop
        cases hstop
      · refine absurd ?_ hends.no_eof
        rw [hinp]
        exact List.mem_append_right _ List.mem_cons_self
  | ends hlen hplain hscan hanswers =>
    have hyes : none ∈ answers (buf.length - 1) inp := by
      rw [hanswers]
      exact List.mem_append_right _ List.mem_cons_self
    rw [reads_of_ends hlen hscan hyes]
    constructor
    · exact fun hnul => .inr ⟨hlen, hplain.no_newline, hplain.no_eof, hnul⟩
    · rintro (⟨body, rest, hinp, -⟩ | hends)
      · refine absurd ?_ hplain.no_newline
        rw [hinp]
        exact List.mem_append_right _ List.mem_cons_self
      · exact hends.terminated
  | full hlen hscan hanswers =>
    have hno : none ∉ answers (buf.length - 1) inp := hanswers ▸ none_notMem_map _
    refine iff_of_false (not_reads_of_full hscan hno) ?_
    rintro (hline | hends)
    · have hstop := stop_of_hasLine hline
      rw [hscan] at hstop
      cases hstop
    · exact absurd hends.room (Nat.not_lt.mpr hlen)

/-- A line of `511` letters is written behind `buf`, and the byte `0xFF` between two letters is taken
    for the end of the input. -/
theorem long_line_and_eof_byte :
    getLine (List.replicate BUFSIZE NUL) (List.replicate 511 97 ++ [NEWLINE]) =
      .error .outOfBounds ∧
    ¬ ReadsLine (List.replicate BUFSIZE NUL) (List.replicate 511 97 ++ [NEWLINE]) ∧
    (∃ buf, getLine (List.replicate BUFSIZE NUL) [97, 255, 98, NEWLINE] =
      .ok (false, buf, [98, NEWLINE])) ∧
    answers (BUFSIZE - 1) [97, 255, 98, NEWLINE] = [some 97, some 255] ∧
    ¬ ReadsLine (List.replicate BUFSIZE NUL) [97, 255, 98, NEWLINE] := by
  have hlong : getLine (List.replicate BUFSIZE NUL) (List.replicate 511 97 ++ [NEWLINE]) =
      .error .outOfBounds := by decide +kernel
  have hanswers : answers (BUFSIZE - 1) [97, 255, 98, NEWLINE] = [some 97, some 255] := by
    decide +kernel
  have hscan : scanLine ((List.replicate BUFSIZE NUL).length - 1) [97, 255, 98, NEWLINE] =
      ([97], some EOF, [98, NEWLINE]) := by decide +kernel
  have hbyte := getLine_eof hscan
  refine ⟨hlong, ?_, ⟨_, hbyte⟩, hanswers, ?_⟩
  · rintro ⟨more, buf', rest, hget, -⟩
    cases hlong.symm.trans hget
  · rintro ⟨more, buf', rest, hget, -, -, hmore⟩
    cases hbyte.symm.trans hget
    rw [List.length_replicate, hanswers] at hmore
    exact absurd (hmore.mp rfl) (by decide)

end Calculator
end Labs
