import Labs.Lib.Retry
import Labs.Lib.Stdio

/-!
# The line that is asked for until it is there

`get_line` of `LAB_10/task_get_line/src/get_line.c`. `buf` is an array of the caller, `bufsize` its
length; what is printed here is left out. A read error may be behind the last byte of the input. It
takes the line with it that it cuts off.

A turn is one call of `fgets`. The code asks again when the buffer is blank, and it is the buffer
that it looks at, not the result of `fgets`. So at the end of the input it asks again for ever, unless
what it had got before was enough (`returns_iff`).

## A loop that looks at the wrong thing

The code decides by the buffer whether it has got a line. As long as `fgets` stores something this
is as good as its result: the first byte of the buffer is the first byte of the chunk
(`blank_store`), so a chunk decides alone, and what was in the buffer is forgotten. At the end of
the input nothing is stored. Then the buffer of the call before decides, again and again.

So the induction is on the input that is left, one chunk at a time, and it has two ends. A buffer
that is blank at the end of the input is asked for ever (`not_returns_of_eof`); one that is not has
been chopped already, unless it is the buffer of the caller, on the first call. That is why the
result speaks of the input alone, but for the empty input, where it speaks of the buffer.

`Returns` does not name a number of calls. It asks that some number is enough, and that what comes
back is what the callers rely on: `ERR`, or a text that ends inside the buffer and has no newline.
-/

namespace Labs
namespace ReversedLine

open Lib

/-- The bytes not read yet, and whether a read error is behind them. -/
structure Stdin where
  bytes : List UInt8
  fails : Bool
deriving DecidableEq

/-- What a call of `fgets` answers. -/
inductive Got
  | chunk (chunk : List UInt8) (rest : Stdin)
  | eof
  | error

def Stdin.fgets (bufsize : Nat) (s : Stdin) : Got :=
  match Lib.fgets bufsize s.bytes with
  | none => if s.fails then .error else .eof
  | some (chunk, rest) =>
    if s.fails ∧ chunk.length < bufsize - 1 ∧ NEWLINE ∉ chunk then .error
    else .chunk chunk ⟨rest, s.fails⟩

/-- `ERR`, or `OK` with the buffer and what is left of the input. -/
inductive Result
  | err
  | ok (buf : List UInt8) (rest : Stdin)
  | outOfBounds
deriving DecidableEq

/-! ## 1. The program -/

/-- The first byte is the terminator or a newline. -/
def Blank (buf : List UInt8) : Prop := buf.head? = some NUL ∨ buf.head? = some NEWLINE

instance (buf : List UInt8) : Decidable (Blank buf) := inferInstanceAs (Decidable (_ ∨ _))

/-- The newline is taken off. -/
def chop (buf : List UInt8) (rest : Stdin) : Result :=
  match strchr buf NEWLINE with
  | none => .outOfBounds
  | some none => .ok buf rest
  | some (some k) => .ok (buf.set k NUL) rest

/-- What follows `fgets`. -/
def look (buf : List UInt8) (rest : Stdin) : Result ⊕ List UInt8 × Stdin :=
  if Blank buf then .inr (buf, rest) else .inl (chop buf rest)

/-- What `fgets` leaves in the buffer. -/
def store (buf chunk : List UInt8) : List UInt8 := chunk ++ NUL :: buf.drop (chunk.length + 1)

/-- From the label `try` on. -/
def attempt (s : List UInt8 × Stdin) : Result ⊕ List UInt8 × Stdin :=
  match s.2.fgets s.1.length with
  | .error => .inl .err
  -- `fgets` returns `NULL` and the buffer is as it was
  | .eof => look s.1 s.2
  | .chunk chunk rest => look (store s.1 chunk) rest

/-- With as many calls of `fgets` at most. -/
def getLine (calls : Nat) (buf : List UInt8) (s : Stdin) : Option Result :=
  if buf.length < 2 then some .err else runFor attempt calls (buf, s)

/-! ## 2. One turn -/

variable {buf chunk : List UInt8} {s rest : Stdin}

/-- A chunk begins with a byte that the code asks no more after. -/
def Plain (chunk : List UInt8) : Prop := ∃ b, chunk.head? = some b ∧ b ≠ NUL ∧ b ≠ NEWLINE

/-- The status is `ERR`, or the buffer holds a string that is not empty and has no newline. -/
def Result.Good : Result → Prop
  | .err => True
  | .ok buf _ => NUL ∈ buf ∧ cstr buf ≠ [] ∧ NEWLINE ∉ cstr buf
  | .outOfBounds => False

/-- The first byte of the buffer is that of the chunk. -/
theorem blank_store (hne : chunk ≠ []) : Blank (store buf chunk) ↔ ¬ Plain chunk := by
  obtain ⟨b, tail, rfl⟩ := List.exists_cons_of_ne_nil hne
  simp only [Plain, Blank, store, List.cons_append, List.head?_cons, Option.some.injEq,
    exists_eq_left']
  by_cases hb : b = NUL <;> simp [hb]

/-- What the end of a string leaves, be it a terminator or a newline. -/
theorem good_of_front {front back : List UInt8} (hne : front ≠ []) (hnul : NUL ∉ front)
    (hnewline : NEWLINE ∉ front) : (Result.ok (front ++ NUL :: back) rest).Good := by
  refine ⟨List.mem_append_right _ (List.mem_cons_self ..), ?_, ?_⟩
  · rwa [cstr_append_nul hnul]
  · rwa [cstr_append_nul hnul]

/-- A buffer that is not blank is a string as soon as something ends it. -/
theorem good_chop (hne : buf ≠ []) (hblank : ¬ Blank buf) :
    (chop buf rest).Good ↔ NUL ∈ buf ∨ NEWLINE ∈ buf := by
  unfold chop
  cases hfound : strchr buf NEWLINE with
  | none =>
    obtain ⟨hnewline, hnul⟩ := strchr_eq_none.mp hfound
    simp [Result.Good, hnewline, hnul]
  | some found =>
    obtain ⟨front, b, back, rfl, hnewline, hnul, hb⟩ := strchr_eq_some hfound
    have hfront : front ≠ [] := by
      intro hnil
      apply hblank
      subst hnil
      obtain ⟨rfl, -⟩ | ⟨rfl, -⟩ := hb
      · exact .inr rfl
      · exact .inl rfl
    obtain ⟨rfl, rfl⟩ | ⟨rfl, rfl⟩ := hb
    · simpa using good_of_front hfront hnul hnewline
    · simpa using good_of_front hfront hnul hnewline

/-! ## 3. The calls of `fgets` -/

/-- What the calls return, one after another. -/
inductive Chunk (bufsize : Nat) : Stdin → List UInt8 → Prop
  | here {s rest : Stdin} {chunk : List UInt8} (hgot : s.fgets bufsize = .chunk chunk rest) :
      Chunk bufsize s chunk
  | later {s rest : Stdin} {chunk next : List UInt8} (hgot : s.fgets bufsize = .chunk chunk rest)
      (hnext : Chunk bufsize rest next) : Chunk bufsize s next

theorem fails_of_error {bufsize : Nat} (h : s.fgets bufsize = .error) : s.fails = true := by
  unfold Stdin.fgets at h
  split at h
  · by_contra hfails
    simp [hfails] at h
  · by_contra hfails
    simp [hfails] at h

theorem eof_spec {bufsize : Nat} (h : s.fgets bufsize = .eof) : s.bytes = [] ∧ s.fails = false := by
  unfold Stdin.fgets Lib.fgets at h
  by_cases hbytes : s.bytes = []
  · exact ⟨hbytes, by simpa [hbytes] using h⟩
  · rw [if_neg hbytes] at h
    simp only at h
    split at h <;> cases h

theorem chunk_spec {bufsize : Nat} (h : s.fgets bufsize = .chunk chunk rest) :
    Lib.fgets bufsize s.bytes = some (chunk, rest.bytes) ∧ rest.fails = s.fails := by
  unfold Stdin.fgets at h
  split at h
  · split at h <;> cases h
  · rename_i hgets
    split at h
    · cases h
    · cases h
      exact ⟨hgets, rfl⟩

/-- The buffer keeps its length. -/
theorem length_store (hsize : 2 ≤ buf.length) (h : s.fgets buf.length = .chunk chunk rest) :
    (store buf chunk).length = buf.length := by
  have hchunk := fgets_length (chunk_spec h).1
  simp only [store, List.length_append, List.length_cons, List.length_drop]
  omega

theorem chunk_cases {bufsize : Nat} {next : List UInt8}
    (h : s.fgets bufsize = .chunk chunk rest) :
    Chunk bufsize s next ↔ next = chunk ∨ Chunk bufsize rest next := by
  constructor
  · intro hnext
    cases hnext with
    | here hgot =>
      rw [h] at hgot
      cases hgot
      exact .inl rfl
    | later hgot hlater =>
      rw [h] at hgot
      cases hgot
      exact .inr hlater
  · intro hnext
    obtain rfl | hlater := hnext
    · exact .here h
    · exact .later h hlater

theorem no_chunk_of_eof {bufsize : Nat} (h : s.fgets bufsize = .eof) :
    ¬ Chunk bufsize s chunk := by
  intro hchunk
  cases hchunk with
  | here hgot =>
    rw [h] at hgot
    cases hgot
  | later hgot hlater =>
    rw [h] at hgot
    cases hgot

/-! ## 4. When the line is there -/

/-- Some number of calls is enough. -/
def Returns (buf : List UInt8) (s : Stdin) : Prop :=
  ∃ calls r, getLine calls buf s = some r ∧ r.Good

/-- A turn sees a chunk that is plain. -/
def SeesPlain (bufsize : Nat) (s : Stdin) : Prop := ∃ chunk, Chunk bufsize s chunk ∧ Plain chunk

theorem returns_iff_comesTo (hsize : 2 ≤ buf.length) :
    Returns buf s ↔ ∃ r, ComesTo attempt (buf, s) r ∧ r.Good := by
  have hgets : ∀ calls, getLine calls buf s = runFor attempt calls (buf, s) := by
    intro calls
    rw [getLine, if_neg (by omega)]
  constructor
  · intro h
    obtain ⟨calls, r, hr, hgood⟩ := h
    exact ⟨r, ⟨calls, by rw [← hgets, hr]⟩, hgood⟩
  · intro h
    obtain ⟨r, ⟨calls, hr⟩, hgood⟩ := h
    exact ⟨calls, r, by rw [hgets, hr], hgood⟩

theorem returns_of_error (hsize : 2 ≤ buf.length) (h : s.fgets buf.length = .error) :
    Returns buf s := by
  have hturn : attempt (buf, s) = .inl .err := by simp [attempt, h]
  rw [returns_iff_comesTo hsize]
  exact ⟨.err, (comesTo_of_inl hturn).mpr rfl, trivial⟩

/-- At the end of the input a blank buffer stays blank. -/
theorem not_returns_of_eof (hsize : 2 ≤ buf.length) (h : s.fgets buf.length = .eof)
    (hblank : Blank buf) : ¬ Returns buf s := by
  have hturn : attempt (buf, s) = .inr (buf, s) := by simp [attempt, h, look, hblank]
  rw [returns_iff_comesTo hsize]
  intro hreturns
  obtain ⟨r, hcomes, -⟩ := hreturns
  exact not_comesTo_of_fixed hturn hcomes

/-- A buffer with something in it is taken for what was read. -/
theorem returns_of_eof (hsize : 2 ≤ buf.length) (h : s.fgets buf.length = .eof)
    (hblank : ¬ Blank buf) : Returns buf s ↔ NUL ∈ buf ∨ NEWLINE ∈ buf := by
  have hturn : attempt (buf, s) = .inl (chop buf s) := by simp [attempt, h, look, hblank]
  have hne : buf ≠ [] := by
    intro hnil
    simp [hnil] at hsize
  rw [returns_iff_comesTo hsize]
  simp only [comesTo_of_inl hturn, exists_eq_left]
  exact good_chop hne hblank

/-- One call that returns a chunk: it is enough, or the next ones are. -/
theorem returns_of_chunk (hsize : 2 ≤ buf.length) (h : s.fgets buf.length = .chunk chunk rest) :
    Returns buf s ↔ Plain chunk ∨ ¬ Plain chunk ∧ Returns (store buf chunk) rest := by
  have hne : chunk ≠ [] := fgets_ne_nil hsize (chunk_spec h).1
  have hstored : 2 ≤ (store buf chunk).length := by
    rw [length_store hsize h]
    exact hsize
  by_cases hplain : Plain chunk
  · have hblank : ¬ Blank (store buf chunk) := fun hblank => (blank_store hne).mp hblank hplain
    have hturn : attempt (buf, s) = .inl (chop (store buf chunk) rest) := by
      simp [attempt, h, look, hblank]
    have hgood : (chop (store buf chunk) rest).Good :=
      (good_chop (by simp [store]) hblank).mpr (.inl (by simp [store]))
    simp only [hplain, true_or, iff_true]
    rw [returns_iff_comesTo hsize]
    exact ⟨_, (comesTo_of_inl hturn).mpr rfl, hgood⟩
  · have hblank : Blank (store buf chunk) := (blank_store hne).mpr hplain
    have hturn : attempt (buf, s) = .inr (store buf chunk, rest) := by
      simp [attempt, h, look, hblank]
    simp only [hplain, false_or, not_false_eq_true, true_and]
    rw [returns_iff_comesTo hsize, returns_iff_comesTo hstored]
    simp only [comesTo_of_inr hturn]

theorem seesPlain_of_chunk {bufsize : Nat} (h : s.fgets bufsize = .chunk chunk rest) :
    SeesPlain bufsize s ↔ Plain chunk ∨ SeesPlain bufsize rest := by
  simp only [SeesPlain, chunk_cases h, or_and_right, exists_or, exists_eq_left]

/-- What is true of the calls after a chunk that is not plain is true of all of them. -/
theorem returns_of_later (hsize : 2 ≤ buf.length) (h : s.fgets buf.length = .chunk chunk rest)
    (hlater : Blank (store buf chunk) →
      (Returns (store buf chunk) rest ↔ rest.fails = true ∨ SeesPlain buf.length rest)) :
    Returns buf s ↔ s.fails = true ∨ SeesPlain buf.length s := by
  obtain ⟨hchunk, hfails⟩ := chunk_spec h
  have hne : chunk ≠ [] := fgets_ne_nil hsize hchunk
  rw [returns_of_chunk hsize h, seesPlain_of_chunk h, ← hfails]
  by_cases hplain : Plain chunk
  · simp [hplain]
  · simp [hplain, hlater ((blank_store hne).mpr hplain)]

/-- From a blank buffer on. The induction is on what is left of the input. -/
theorem returns_of_blank (hsize : 2 ≤ buf.length) (hblank : Blank buf) :
    Returns buf s ↔ s.fails = true ∨ SeesPlain buf.length s := by
  induction hn : s.bytes.length using Nat.strong_induction_on generalizing s buf with
  | h n ih =>
    cases hgets : s.fgets buf.length with
    | error => simp [returns_of_error hsize hgets, fails_of_error hgets]
    | eof => simp [not_returns_of_eof hsize hgets hblank, eof_spec hgets, SeesPlain,
        no_chunk_of_eof hgets]
    | chunk chunk rest =>
      have hlength := length_store hsize hgets
      have hshort : rest.bytes.length < n := by
        rw [← hn]
        exact fgets_rest_length_lt hsize (chunk_spec hgets).1
      apply returns_of_later hsize hgets
      intro hstored
      rw [← hlength]
      exact ih _ hshort (by rw [hlength]; exact hsize) hstored rfl

theorem takeLine_cons {n : Nat} {b : UInt8} {bytes : List UInt8} (hb : b ≠ NEWLINE) :
    takeLine (n + 1) (b :: bytes) = b :: takeLine n bytes := by
  rw [takeLine, if_neg hb]

/-- A line that is not empty is a plain chunk, or the front of it is. -/
theorem seesPlain_of_text {bufsize : Nat} (hsize : 2 ≤ bufsize) {bytes : List UInt8}
    (hnul : NUL ∉ bytes) :
    SeesPlain bufsize ⟨bytes, false⟩ ↔ ∃ b ∈ bytes, b ≠ NEWLINE := by
  obtain ⟨n, rfl⟩ : ∃ n, bufsize = n + 2 := ⟨bufsize - 2, by omega⟩
  induction bytes with
  | nil =>
    have hend : Stdin.fgets (n + 2) ⟨[], false⟩ = .eof := rfl
    simp [SeesPlain, no_chunk_of_eof hend]
  | cons b bytes ih =>
    rw [List.mem_cons, not_or] at hnul
    by_cases hb : b = NEWLINE
    · subst hb
      have hgets : Stdin.fgets (n + 2) ⟨NEWLINE :: bytes, false⟩ =
          .chunk [NEWLINE] ⟨bytes, false⟩ := rfl
      rw [seesPlain_of_chunk hgets, ih hnul.2]
      simp [Plain]
    · have hgets : Stdin.fgets (n + 2) ⟨b :: bytes, false⟩ =
          .chunk (b :: takeLine n bytes) ⟨bytes.drop (takeLine n bytes).length, false⟩ := by
        simp [Stdin.fgets, Lib.fgets, takeLine_cons hb]
      rw [seesPlain_of_chunk hgets]
      have hplain : Plain (b :: takeLine n bytes) := ⟨b, rfl, Ne.symm hnul.1, hb⟩
      simp [hplain, hb]

/-- Of text, all that is needed is one byte that is not a newline. -/
theorem returns_of_text {bytes : List UInt8} (hsize : 2 ≤ buf.length) (hblank : Blank buf)
    (hnul : NUL ∉ bytes) : Returns buf ⟨bytes, false⟩ ↔ ∃ b ∈ bytes, b ≠ NEWLINE := by
  rw [returns_of_blank hsize hblank, ← seesPlain_of_text hsize hnul]
  simp

theorem fgets_of_line {bufsize : Nat} {text bytes : List UInt8} (fails : Bool)
    (hnewline : NEWLINE ∉ text) :
    ∃ rest, Stdin.fgets bufsize ⟨text ++ NEWLINE :: bytes, fails⟩ =
      .chunk ((text ++ [NEWLINE]).take (bufsize - 1)) rest := by
  have hkept : ¬ (fails = true ∧ ((text ++ [NEWLINE]).take (bufsize - 1)).length < bufsize - 1 ∧
      NEWLINE ∉ (text ++ [NEWLINE]).take (bufsize - 1)) := by
    intro hlost
    obtain ⟨-, hshort, hlost⟩ := hlost
    rw [List.length_take] at hshort
    rw [List.take_of_length_le (by omega)] at hlost
    exact hlost (by simp)
  simp only [Stdin.fgets, Lib.fgets, takeLine_append hnewline]
  rw [if_neg (by simp)]
  exact ⟨_, if_neg hkept⟩

/-- With its newline or cut off, the line is what is in the buffer then. -/
theorem chop_of_line {text : List UInt8} {n : Nat} (rest : Stdin) (hnul : NUL ∉ text)
    (hnewline : NEWLINE ∉ text) :
    ∃ buf', chop (store buf ((text ++ [NEWLINE]).take n)) rest = .ok buf' rest ∧
      NUL ∈ buf' ∧ cstr buf' = text.take n := by
  by_cases hroom : text.length < n
  · have hchunk : (text ++ [NEWLINE]).take n = text ++ [NEWLINE] := by
      rw [List.take_of_length_le]
      simpa using hroom
    have hchop : chop (store buf (text ++ [NEWLINE])) rest =
        .ok (text ++ NUL :: NUL :: buf.drop ((text ++ [NEWLINE]).length + 1)) rest := by
      unfold chop store
      rw [List.append_assoc, List.singleton_append, strchr_append hnewline hnul (.inl rfl)]
      simp
    rw [hchunk, List.take_of_length_le hroom.le]
    exact ⟨_, hchop, by simp, cstr_append_nul hnul _⟩
  · have hchunk : (text ++ [NEWLINE]).take n = text.take n :=
      List.take_append_of_le_length (by omega)
    have hcut : NUL ∉ text.take n := fun hm => hnul (List.mem_of_mem_take hm)
    have hline : NEWLINE ∉ text.take n := fun hm => hnewline (List.mem_of_mem_take hm)
    have hchop : chop (store buf (text.take n)) rest =
        .ok (text.take n ++ NUL :: buf.drop ((text.take n).length + 1)) rest := by
      unfold chop store
      rw [strchr_append hline hcut (.inr rfl), if_neg (by decide)]
    rw [hchunk]
    exact ⟨_, hchop, by simp, cstr_append_nul hcut _⟩

/-- A line is got by the first call, as far as there is room for it. -/
theorem getLine_of_line {text : List UInt8} (bytes : List UInt8) (fails : Bool)
    (hsize : 2 ≤ buf.length) (hne : text ≠ []) (hnul : NUL ∉ text) (hnewline : NEWLINE ∉ text) :
    ∃ buf' rest, getLine 1 buf ⟨text ++ NEWLINE :: bytes, fails⟩ = some (.ok buf' rest) ∧
      NUL ∈ buf' ∧ cstr buf' = text.take (buf.length - 1) := by
  obtain ⟨rest, hgets⟩ := @fgets_of_line buf.length text bytes fails hnewline
  obtain ⟨buf', hchop, hmem, htext⟩ := @chop_of_line buf text (buf.length - 1) rest hnul hnewline
  have hblank : ¬ Blank (store buf ((text ++ [NEWLINE]).take (buf.length - 1))) := by
    obtain ⟨b, tail, rfl⟩ := List.exists_cons_of_ne_nil hne
    obtain ⟨n, hn⟩ : ∃ n, buf.length - 1 = n + 1 := ⟨buf.length - 2, by omega⟩
    rw [List.mem_cons, not_or] at hnul hnewline
    rw [hn]
    simp [Blank, store, Ne.symm hnul.1, Ne.symm hnewline.1]
  have hturn : attempt (buf, ⟨text ++ NEWLINE :: bytes, fails⟩) = .inl (.ok buf' rest) := by
    simp only [attempt, hgets, look, if_neg hblank, hchop]
  refine ⟨buf', rest, ?_, hmem, htext⟩
  rw [getLine, if_neg (by omega), runFor_of_inl hturn]

end ReversedLine
end Labs
