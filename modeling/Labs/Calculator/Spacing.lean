import Labs.Calculator.Remainder

/-!
# Spaces in a line

`strtok` cuts the line at spaces only, and the newline stays where it is: at the last word if nothing
stands between them, and as a token of its own if there are spaces. A newline behind a word changes
nothing (`step_newline`). As a token it is `RESET`, without a complaint: the stack is drained, and the
result is not printed. So two lines of the same words do the same exactly if both have spaces behind the
last word, or neither has, or they are left before it matters.

## What makes two lines the same

Lines are compared as they are typed, with their spaces; their words are what `strtok` makes of
them. So the first half of this module is about cutting (`spaced`), and gives the tokens of a line:
its words, the last of them with a newline, or with a token behind it that is the newline alone.

The second half follows the loop over the tokens. Where it leaves the line early, at a word that is
refused or at a divisor that is zero, what stands at the end does not matter. Where it does not, the
newline as a token drains the stack before the result is printed, and the other line prints it. So
the condition for two lines of the same words is that both have the token or neither has, or that
the words lead out of the loop before.

Whether they do is decided by what is on the stack when a word is read (`Word.Refused`), in the
arithmetic the program runs in. Nothing is assumed of rounding: read for doubles, a divisor is zero
when the double is, whatever it would be on paper.
-/

namespace Labs
namespace Calculator

open Lib

variable {D : Type} [Arithmetic D] {strtod : List UInt8 → D × Bool} {c c' : Calc D} {tok e : List UInt8} {type : Mode}
  {toks more : List (List UInt8)} {said : List Said} {flow : Flow} {crash : Crash} {n trail : Nat}

/-- A word of a postfix line. -/
inductive Word
  | num (n : Numeral)
  | oper (op : BinOp)

def Word.text : Word → List UInt8
  | .num n => n.text
  | .oper op => [op.char]

/-- Words with spaces in front of them, one of which separates a word from the one before, and spaces
    behind the last one. -/
def spaced (trail : Nat) : List (Nat × List UInt8) → List UInt8
  | [] => List.replicate trail 32
  | [(gap, word)] => List.replicate gap 32 ++ (word ++ List.replicate trail 32)
  | (gap, word) :: rest => List.replicate gap 32 ++ (word ++ 32 :: spaced trail rest)

/-- A line with these words. -/
structure SpacedLine (words : List Word) extends Line where
  gaps : List Nat
  trail : Nat
  size : gaps.length = words.length
  spells : bytes = spaced trail (gaps.zip (words.map Word.text))

/-- The word ends the line early: it is out of range, or an operator that the operands do not
    allow. -/
def Word.Refused (strtod : List UInt8 → D × Bool) (c : Calc D) : Word → Prop
  | .num n => OutOfRange strtod n.text
  | .oper .div => Arithmetic.isZero (c.stack.items.headD EOS) = true
  | .oper .rem => c.type = .DOUBLE ∨
      ¬ HasRemainder (c.stack.items.tail.headD EOS) (c.stack.items.headD EOS)
  | .oper _ => False

/-- One of the words ends the line early. -/
inductive LeftEarly (strtod : List UInt8 → D × Bool) : Calc D → List Word → Prop
  | here {c : Calc D} {w : Word} {words : List Word} (h : w.Refused strtod c) :
      LeftEarly strtod c (w :: words)
  | later {c c' : Calc D} {w : Word} {words : List Word} {said : List Said}
      (hstep : step strtod c w.text = .ok (.next, c', said)) (h : LeftEarly strtod c' words) :
      LeftEarly strtod c (w :: words)

/-- The two lines print the same, and leave the same stack. -/
def SameOutcome (strtod : List UInt8 → D × Bool) (c : Calc D) (l l' : Line) : Prop :=
  (line strtod c l.buf).map (fun r => (r.1.map Calc.stack, r.2)) =
    (line strtod c l'.buf).map fun r => (r.1.map Calc.stack, r.2)

/-! ## 1. A newline behind a word -/

theorem step_char (op : BinOp) (he : LineEnd e) :
    step strtod c (op.char :: e) = execute op.oper c >>= fun r => .ok (r.1, r.2.1, [] ++ r.2.2) := by
  rw [step, parseTok_operator ((operator_cons he).trans (operOf_char op))]
  rfl

/-- A newline behind a word changes nothing. -/
theorem step_newline (hx : StopsAtNewline strtod) (c : Calc D) (w : Word) :
    step strtod c (w.text ++ [NEWLINE]) = step strtod c w.text := by
  cases w with
  | num n =>
    have hplain : step strtod c (n.text ++ []) = _ := step_num n (.inl rfl)
    rw [List.append_nil, List.append_nil] at hplain
    show step strtod c (n.text ++ [NEWLINE]) = step strtod c n.text
    rw [step_num n (.inr rfl), hx n, hplain]
  | oper op =>
    show step strtod c (op.char :: [NEWLINE]) = step strtod c [op.char]
    rw [step_char op (.inr rfl), step_char op (.inl rfl)]

/-! ## 2. The tokens of a line -/

/-- The newline is at the last word, or a token of its own. -/
def lineTokens (trail : Nat) : List (List UInt8) → List (List UInt8)
  | [] => [[NEWLINE]]
  | [word] => if trail = 0 then [word ++ [NEWLINE]] else [word, [NEWLINE]]
  | word :: words => word :: lineTokens trail words

theorem Word.text_ne_nil (w : Word) : w.text ≠ [] := by
  cases w with
  | num n =>
    refine List.append_ne_nil_of_right_ne_nil _ (List.append_ne_nil_of_left_ne_nil n.whole_ne _)
  | oper op => exact List.cons_ne_nil _ _

theorem Word.text_plain (w : Word) : ∀ b ∈ w.text, b ∉ TERMINATORS := by
  intro b hb
  cases w with
  | num n =>
    rcases Numeral.mem_text hb with rfl | rfl | hd
    · decide
    · decide
    · exact digit_plain hd
  | oper op =>
    rw [List.mem_singleton.mp hb]
    cases op <;> decide

/-- `strtok` finds the words. -/
theorem strtokAll_spaced {words : List (List UInt8)} {gaps : List Nat}
    (hlen : gaps.length = words.length) (hne : words ≠ [])
    (hwords : ∀ w ∈ words, w ≠ [] ∧ ∀ b ∈ w, b ∉ SPACE) {fuel : Nat}
    (hfuel : (spaced trail (gaps.zip words) ++ [NEWLINE]).length < fuel) :
    (strtokAll SPACE fuel (spaced trail (gaps.zip words) ++ [NEWLINE])).1 =
      lineTokens trail words := by
  have hnewline : ∀ b ∈ [NEWLINE], b ∉ SPACE :=
    List.forall_mem_singleton.mpr (by decide)
  induction words generalizing gaps fuel with
  | nil => exact absurd rfl hne
  | cons word words ih =>
    obtain ⟨fuel, rfl⟩ : ∃ n, fuel = n + 1 := ⟨fuel - 1, by omega⟩
    obtain ⟨gap, gaps, rfl⟩ := List.exists_cons_of_length_eq_add_one hlen
    obtain ⟨⟨hword, hspace⟩, hrest⟩ := List.forall_mem_cons.mp hwords
    cases words with
    | nil =>
      rw [List.length_eq_zero_iff.mp (Nat.succ.inj hlen)] at hfuel ⊢
      cases trail with
      | zero =>
        have hlast : ∀ b ∈ word ++ [NEWLINE], b ∉ SPACE := by
          intro b hb
          rcases List.mem_append.mp hb with hb | hb
          · exact hspace b hb
          · exact hnewline b hb
        have hline : spaced 0 (List.zip (gap :: []) [word]) ++ [NEWLINE] =
            List.replicate gap 32 ++ (word ++ [NEWLINE]) := by
          simp [spaced]
        rw [hline, strtokAll_last fuel gap (List.append_ne_nil_of_left_ne_nil hword _) hlast]
        rfl
      | succ t =>
        have hline : spaced (t + 1) (List.zip (gap :: []) [word]) ++ [NEWLINE] =
            List.replicate gap 32 ++ (word ++ 32 :: (List.replicate t 32 ++ [NEWLINE])) := by
          simp [spaced, List.replicate_succ]
        obtain ⟨fuel, rfl⟩ : ∃ n, fuel = n + 1 := by
          rw [hline] at hfuel
          simp only [List.length_append, List.length_cons] at hfuel
          exact ⟨fuel - 1, by omega⟩
        rw [hline, strtokAll_word _ gap hword hspace,
          strtokAll_last fuel t (List.cons_ne_nil _ _) hnewline]
        rfl
    | cons word' words =>
      obtain ⟨gap', gaps, rfl⟩ := List.exists_cons_of_length_eq_add_one (Nat.succ.inj hlen)
      have hline : spaced trail ((gap :: gap' :: gaps).zip (word :: word' :: words)) ++ [NEWLINE] =
          List.replicate gap 32 ++ (word ++ 32 ::
            (spaced trail ((gap' :: gaps).zip (word' :: words)) ++ [NEWLINE])) := by
        simp [spaced]
      rw [hline] at hfuel ⊢
      rw [strtokAll_word fuel gap hword hspace,
        ih (Nat.succ.inj hlen) (List.cons_ne_nil _ _) hrest]
      · rfl
      · simp only [List.length_append, List.length_cons] at hfuel ⊢
        omega

/-! ## 3. The words of a line -/

/-- The loop goes on, with an item on the stack. -/
def GoesOn (r : Except Crash (Flow × Calc D × List Said)) : Prop :=
  ∃ c' said, r = .ok (.next, c', said) ∧ 0 < c'.stack.idx

/-- The loop is left. -/
def IsLeft (r : Except Crash (Flow × Calc D × List Said)) : Prop :=
  ∀ c' said, r ≠ .ok (.next, c', said)

omit [Arithmetic D] in
theorem goesOn_result (c : Calc D) (s : Stack D) (x : D) : GoesOn (.ok (c.result s x)) :=
  ⟨⟨push s x, x, c.type⟩, [], rfl, push_pos s x⟩

/-- What an operator does, and the messages of `parseTok` in front of it, of which there are none. -/
theorem goesOn_oper {op : BinOp} (h : GoesOn (execute op.oper c)) :
    GoesOn (step strtod c (Word.oper op).text) := by
  obtain ⟨c', said, hexec, hpos⟩ := h
  refine ⟨c', [] ++ said, ?_, hpos⟩
  show step strtod c (op.char :: []) = _
  rw [step_char op (.inl rfl), hexec]
  rfl

theorem isLeft_oper {op : BinOp} (h : IsLeft (execute op.oper c)) :
    IsLeft (step strtod c (Word.oper op).text) := by
  intro c' said hstep
  have hstep : step strtod c (op.char :: []) = _ := hstep
  rw [step_char op (.inl rfl)] at hstep
  obtain ⟨⟨flow, c₁, now⟩, hexec, hr⟩ := of_bind_ok hstep
  cases hr
  exact h _ _ hexec

theorem refused_div :
    (Word.oper .div).Refused strtod c ↔ Arithmetic.isZero (pop c.stack).1 = true := by
  show Arithmetic.isZero (c.stack.items.headD EOS) = true ↔
    Arithmetic.isZero (popItems c.stack.items).1 = true
  rw [popItems_eq]

theorem refused_rem : (Word.oper .rem).Refused strtod c ↔
    c.type = .DOUBLE ∨ ∃ crash,
      remOf (c.stack.items.tail.headD EOS) (c.stack.items.headD EOS) = .error crash := by
  show c.type = .DOUBLE ∨ ¬ HasRemainder _ _ ↔ _
  rw [not_hasRemainder_iff]

/-- A word leaves the line exactly if it is refused. -/
theorem step_word (strtod : List UInt8 → D × Bool) (c : Calc D) (w : Word) :
    (w.Refused strtod c → IsLeft (step strtod c w.text)) ∧
      (¬ w.Refused strtod c → GoesOn (step strtod c w.text)) := by
  cases w with
  | num n =>
    have htext : unsignedOf n.text = n.unsigned := by
      have := (n.signed_text []).2.1
      rwa [List.append_nil, List.append_nil] at this
    have hstep : step strtod c (n.text ++ []) = _ := step_num n (.inl rfl)
    rw [List.append_nil, List.append_nil] at hstep
    show (OutOfRange strtod n.text → IsLeft (step strtod c n.text)) ∧
      (¬ OutOfRange strtod n.text → GoesOn (step strtod c n.text))
    unfold OutOfRange
    rw [htext, hstep]
    constructor
    · intro hrange c' said h
      rw [if_pos hrange] at h
      cases h
    · intro hrange
      rw [if_neg hrange]
      exact ⟨_, [], rfl, push_pos _ _⟩
  | oper op =>
    cases op with
    | add => exact ⟨False.elim, fun _ => goesOn_oper (goesOn_result _ _ _)⟩
    | sub => exact ⟨False.elim, fun _ => goesOn_oper (goesOn_result _ _ _)⟩
    | mul => exact ⟨False.elim, fun _ => goesOn_oper (goesOn_result _ _ _)⟩
    | div =>
      rw [refused_div]
      constructor
      · intro hzero
        refine isLeft_oper fun c' said h => ?_
        have h : ordered .DIV c = _ := h
        unfold ordered at h
        simp only [hzero, and_self, if_true] at h
        cases h
      · intro hne
        refine goesOn_oper ?_
        have hexec : ordered .DIV c =
            .ok (c.result (pop (pop c.stack).2).2 ((pop (pop c.stack).2).1 / (pop c.stack).1)) := by
          unfold ordered
          simp only [hne, and_false, if_false, reduceCtorEq, false_and]
        show GoesOn (ordered .DIV c)
        rw [hexec]
        exact goesOn_result _ _ _
    | rem =>
      rw [refused_rem]
      constructor
      · intro hrefused
        refine isLeft_oper fun c' said h => ?_
        have h : ordered .REM c = _ := h
        rw [ordered_rem] at h
        split at h
        · cases h
        · rename_i hint
          obtain ⟨crash, hcrash⟩ := hrefused.resolve_left hint
          rw [hcrash] at h
          cases h
      · intro hno
        rw [not_or, not_exists] at hno
        refine goesOn_oper ?_
        show GoesOn (ordered .REM c)
        rw [ordered_rem, if_neg hno.1]
        cases hrem : remOf (c.stack.items.tail.headD EOS) (c.stack.items.headD EOS) with
        | error crash => exact absurd hrem (hno.2 crash)
        | ok x => exact goesOn_result _ _ _

/-- Words of which none is refused are all executed. -/
theorem tokenLoop_words {words : List Word} (h : ¬ LeftEarly strtod c words) (hne : words ≠ []) :
    GoesOn (tokenLoop strtod c (words.map Word.text)) := by
  induction words generalizing c with
  | nil => exact absurd rfl hne
  | cons w words ih =>
    obtain ⟨c₁, now, hstep, hpos⟩ := (step_word strtod c w).2 fun hw => h (.here hw)
    rw [List.map_cons, tokenLoop_cons hstep]
    cases words with
    | nil => exact ⟨c₁, now ++ [], rfl, hpos⟩
    | cons w' words =>
      obtain ⟨c', later, hloop, hpos'⟩ := ih (fun hw => h (.later hstep hw)) (List.cons_ne_nil _ _)
      rw [hloop]
      exact ⟨c', now ++ later, rfl, hpos'⟩

/-- What stands behind a word that is refused is not looked at. -/
theorem tokenLoop_leftEarly {words : List Word} (h : LeftEarly strtod c words)
    (more : List (List UInt8)) : tokenLoop strtod c (words.map Word.text ++ more) =
      tokenLoop strtod c (words.map Word.text) := by
  induction h with
  | @here c w words hw =>
    have hleft := (step_word strtod c w).1 hw
    rw [List.map_cons, List.cons_append]
    cases hstep : step strtod c w.text with
    | error crash => rw [tokenLoop_crash hstep, tokenLoop_crash hstep]
    | ok r =>
      obtain ⟨flow, c', said⟩ := r
      have hstop : flow ≠ .next := by
        rintro rfl
        exact hleft c' said hstep
      rw [tokenLoop_stop hstep hstop, tokenLoop_stop hstep hstop]
  | later hstep h ih =>
    rw [List.map_cons, List.cons_append, tokenLoop_cons hstep, tokenLoop_cons hstep, ih]

/-- The first token of two loops does the same. -/
theorem tokenLoop_cons_congr {tok' : List UInt8} {toks' : List (List UInt8)}
    (hstep : step strtod c tok = step strtod c tok')
    (hrest : ∀ c, tokenLoop strtod c toks = tokenLoop strtod c toks') :
    tokenLoop strtod c (tok :: toks) = tokenLoop strtod c (tok' :: toks') := by
  rw [tokenLoop, tokenLoop, hstep]
  refine congrArg _ (funext fun r => ?_)
  obtain ⟨flow, c', said⟩ := r
  cases flow with
  | next => exact congrArg (· >>= _) (hrest c')
  | tryAgain => rfl
  | disgrace => rfl

/-- The newline at the last word changes nothing. -/
theorem tokenLoop_newline (hx : StopsAtNewline strtod) {words : List Word} (hne : words ≠ [])
    (c : Calc D) : tokenLoop strtod c (lineTokens 0 (words.map Word.text)) =
      tokenLoop strtod c (words.map Word.text) := by
  induction words generalizing c with
  | nil => exact absurd rfl hne
  | cons w words ih =>
    cases words with
    | nil => exact tokenLoop_cons_congr (step_newline hx c w) fun _ => rfl
    | cons w' words => exact tokenLoop_cons_congr rfl (ih (List.cons_ne_nil _ _))

/-- With spaces in front of it the newline is one more token. -/
theorem lineTokens_spaces (htrail : trail ≠ 0) {words : List (List UInt8)} (hne : words ≠ []) :
    lineTokens trail words = words ++ [[NEWLINE]] := by
  induction words with
  | nil => exact absurd rfl hne
  | cons word words ih =>
    cases words with
    | nil => exact if_neg htrail
    | cons word' words => exact congrArg (word :: ·) (ih (List.cons_ne_nil _ _))

/-- … which resets, and says nothing. -/
theorem step_newline_alone (strtod : List UInt8 → D × Bool) (c : Calc D) :
    step strtod c [NEWLINE] = .ok (.tryAgain, ⟨c.stack.reset, c.val, .INT⟩, []) := rfl

/-! ## 4. Two lines -/

theorem nul_notMem_spaced {words : List (Nat × List UInt8)}
    (h : ∀ w ∈ words, ∀ b ∈ w.2, b ∉ TERMINATORS) : NUL ∉ spaced trail words := by
  have hspaces : ∀ n, NUL ∉ List.replicate n (32 : UInt8) := by
    intro n hn
    exact absurd (List.eq_of_mem_replicate hn) (by decide)
  have hword : ∀ w ∈ words, NUL ∉ w.2 := fun w hw hn => h w hw NUL hn (by decide)
  fun_induction spaced trail words with
  | case1 => exact hspaces trail
  | case2 gap word =>
    rw [List.mem_append, List.mem_append, not_or, not_or]
    exact ⟨hspaces gap, hword (gap, word) List.mem_cons_self, hspaces trail⟩
  | case3 gap word rest hne ih =>
    obtain ⟨hfirst, hrest⟩ := List.forall_mem_cons.mp hword
    rw [List.mem_append, List.mem_append, List.mem_cons, not_or, not_or, not_or]
    exact ⟨hspaces gap, hfirst, by decide,
      ih (fun w hw => h w (List.mem_cons_of_mem _ hw)) hrest⟩

theorem SpacedLine.cstr_buf {words : List Word} (l : SpacedLine words) :
    cstr l.buf = spaced l.trail (l.gaps.zip (words.map Word.text)) ++ [NEWLINE] := by
  have hbuf : l.buf = spaced l.trail (l.gaps.zip (words.map Word.text)) ++ [NEWLINE] ++ NUL :: [] := by
    rw [Line.buf, l.spells]
    simp
  have hplain : NUL ∉ spaced l.trail (l.gaps.zip (words.map Word.text)) := by
    refine nul_notMem_spaced fun w hw => ?_
    obtain ⟨word, -, hword⟩ := List.mem_map.mp (List.of_mem_zip hw).2
    rw [← hword]
    exact word.text_plain
  rw [hbuf]
  refine cstr_append_nul ?_ []
  rw [List.mem_append, not_or]
  exact ⟨hplain, by decide⟩

theorem SpacedLine.tokens_eq {words : List Word} (hne : words ≠ []) (l : SpacedLine words) :
    (tokens SPACE (cstr l.buf)).1 = lineTokens l.trail (words.map Word.text) := by
  rw [l.cstr_buf]
  refine strtokAll_spaced (by rw [l.size, List.length_map]) (by simpa using hne) ?_
    (Nat.lt_succ_self _)
  intro w hw
  obtain ⟨word, -, rfl⟩ := List.mem_map.mp hw
  exact ⟨word.text_ne_nil, fun b hb => not_space (word.text_plain b hb)⟩

/-- A line that is not left early, without spaces at its end, and with them. -/
theorem SpacedLine.line_eq (hx : StopsAtNewline strtod) {words : List Word} (hne : words ≠ [])
    (l : SpacedLine words) : line strtod c l.buf =
      (tokenLoop strtod c (words.map Word.text ++ if l.trail = 0 then [] else [[NEWLINE]])).map
        lineEnd := by
  rw [Calculator.line_eq, l.tokens_eq hne]
  split
  · rename_i htrail
    rw [htrail, tokenLoop_newline hx hne, List.append_nil]
  · rename_i htrail
    rw [lineTokens_spaces htrail (by simpa using hne)]

theorem SameOutcome.symm {l l' : Line} (h : SameOutcome strtod c l l') :
    SameOutcome strtod c l' l := Eq.symm h

/-- The result is printed if nothing stands behind the last word, and not if there are spaces. -/
theorem not_same_of_spaces (hx : StopsAtNewline strtod) {words : List Word} (hne : words ≠ [])
    {l l' : SpacedLine words} (hlast : l.trail = 0) (hspaces : l'.trail ≠ 0)
    (h : ¬ LeftEarly strtod c words) : ¬ SameOutcome strtod c l.toLine l'.toLine := by
  obtain ⟨c', said, hloop, hpos⟩ := tokenLoop_words h hne
  have hline : line strtod c l.buf = .ok (some (finishLine c').1, said ++ (finishLine c').2) := by
    rw [l.line_eq hx hne, if_pos hlast, List.append_nil, hloop]
    rfl
  have hline' : line strtod c l'.buf = .ok (some ⟨c'.stack.reset, c'.val, .INT⟩, said) := by
    rw [l'.line_eq hx hne, if_neg hspaces, tokenLoop_append hloop,
      tokenLoop_stop (step_newline_alone strtod c') (by decide)]
    show Except.ok (some _, said ++ []) = _
    rw [List.append_nil]
  have hprinted : (finishLine c').2 = [.value (Arithmetic.printG (pop c'.stack).1)] := by
    rw [finishLine, if_pos hpos]
  intro hsame
  unfold SameOutcome at hsame
  rw [hline, hline'] at hsame
  have hsaid := congrArg (fun r : Option (Stack D) × List Said => r.2.length) (Except.ok.inj hsame)
  rw [hprinted] at hsaid
  simp at hsaid

/-- **Two lines of the same words do the same if and only if the last word has spaces behind it in both
    or in none, or they are left early.** -/
theorem same_outcome_iff (hx : StopsAtNewline strtod) {words : List Word} (hne : words ≠ [])
    (c : Calc D) (l l' : SpacedLine words) : SameOutcome strtod c l.toLine l'.toLine ↔
      (l.trail = 0 ↔ l'.trail = 0) ∨ LeftEarly strtod c words := by
  constructor
  · intro hsame
    by_contra hno
    obtain ⟨hdiffer, hstays⟩ := not_or.mp hno
    by_cases hlast : l.trail = 0
    · have hspaces : l'.trail ≠ 0 := fun h => hdiffer (iff_of_true hlast h)
      exact not_same_of_spaces hx hne hlast hspaces hstays hsame
    · have hlast' : l'.trail = 0 := by
        by_contra h
        exact hdiffer (iff_of_false hlast h)
      exact not_same_of_spaces hx hne hlast' hlast hstays hsame.symm
  · intro h
    have hline : line strtod c l.buf = line strtod c l'.buf := by
      rw [l.line_eq hx hne, l'.line_eq hx hne]
      rcases h with htrail | hleft
      · simp only [htrail]
      · rw [tokenLoop_leftEarly hleft, tokenLoop_leftEarly hleft]
    unfold SameOutcome
    rw [hline]

/-- `2` and `3`. -/
def digitWord (b : UInt8) (hb : isdigit b) : Word := .num (digit b hb).numeral

/-- `2 3 +`. -/
def sumWords : List Word := [digitWord 50 (by decide), digitWord 51 (by decide), .oper .add]

def sumBytes (lead trail : Nat) : List UInt8 :=
  spaced trail ([lead, 0, 0].zip (sumWords.map Word.text))

/-- `2 3 +` with spaces in front of it and behind. -/
def sumSpaced (lead trail : Nat) (hplain : ∀ b ∈ sumBytes lead trail, b ≠ EOF ∧ b ≠ NEWLINE)
    (hfits : (sumBytes lead trail).length + 1 < BUFSIZE) : SpacedLine sumWords where
  bytes := sumBytes lead trail
  plain := hplain
  fits := hfits
  gaps := [lead, 0, 0]
  trail := trail
  size := rfl
  spells := rfl

def plainSum : SpacedLine sumWords := sumSpaced 0 0 (by decide +kernel) (by decide +kernel)
def indentedSum : SpacedLine sumWords := sumSpaced 2 0 (by decide +kernel) (by decide +kernel)
def trailingSum : SpacedLine sumWords := sumSpaced 0 1 (by decide +kernel) (by decide +kernel)

theorem same_outcome_sum :
    SameOutcome strtodDecimal (Calc.init : Calc Float) plainSum.toLine indentedSum.toLine ↔
      (plainSum.trail = 0 ↔ indentedSum.trail = 0) ∨
        LeftEarly strtodDecimal (Calc.init : Calc Float) sumWords :=
  same_outcome_iff stopsAtNewline_strtodDecimal (List.cons_ne_nil _ _) Calc.init plainSum
    indentedSum

/-- `2 3 +` prints `5`, and with a space behind the sign prints nothing. -/
theorem spaces_at_end :
    line strtodDecimal (Calc.init : Calc Float) plainSum.buf =
        .ok (some Calc.init, [.value (ascii "5")]) ∧
      line strtodDecimal (Calc.init : Calc Float) trailingSum.buf =
        .ok (some ⟨initStack, 5, .INT⟩, []) ∧
      ¬ SameOutcome strtodDecimal (Calc.init : Calc Float) plainSum.toLine trailingSum.toLine := by
  refine ⟨by decide +kernel, by decide +kernel, ?_⟩
  unfold SameOutcome
  decide +kernel

end Calculator
end Labs
