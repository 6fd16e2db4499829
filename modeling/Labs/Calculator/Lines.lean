import Labs.Calculator.Evaluate

/-!
# Lines

`getLine` hands the loop one line after the other, as long as a line fits into the buffer: the
program on a file of lines is `session` over them (`calculator_lines`). `expressionLine` writes
the tokens of an expression into a line, with one space or more between them and the newline right
behind the last; `strtok` gives the tokens back, the last one with its newline
(`spells_expressionLine`).

## From bytes to a session

The program reads bytes and has one buffer. Everything behind it is about lines and their tokens, so
this is the module in which bytes are given up. A `Line` is what `getLine` can deliver whole;
`session` is the loop of the program over a list of them, with what is said for each; and `strtok`
is replaced by the words that a line was made of. Each of the three has one theorem that replaces
it, and the modules behind this one cite these and no buffer.

`expressionLine` has a parameter for the spaces in front of each token. The results about
expressions are for all of them, so the spacing of a line does not matter as long as the newline
stands right behind the last token; what happens if it does not is the subject of `Spacing`.

What is printed is the text that `%g` makes of the value, not the value: two numbers that agree in
six digits are printed the same (`Expr.shown`).
-/

namespace Labs
namespace Calculator

open Lib

variable {D : Type} [Arithmetic D] {strtod : List UInt8 → D × Bool} {c : Calc D}

/-- What stands in front of a newline that `getLine` reaches. -/
structure Line where
  bytes : List UInt8
  plain : ∀ b ∈ bytes, b ≠ EOF ∧ b ≠ NEWLINE
  fits : bytes.length + 1 < BUFSIZE

/-- The string in `buf`, with its terminator. -/
def Line.buf (l : Line) : List UInt8 := l.bytes ++ [NEWLINE, NUL]

/-- The lines of a run, until one of them ends it. -/
def session (strtod : List UInt8 → D × Bool) : Calc D → List Line →
    Except Crash (Option (Calc D) × List (List Said))
  | c, [] => .ok (some c, [])
  | c, l :: ls => do
    match ← line strtod c l.buf with
    | (none, said) => return (none, [said])
    | (some c, said) =>
      let (last, later) ← session strtod c ls
      return (last, said :: later)

/-! ## 1. The input is its lines -/

/-- A file of lines. -/
def fileOf (ls : List Line) : List UInt8 := ls.flatMap fun l => l.bytes ++ [NEWLINE]

theorem scanLine_line {n : Nat} {bytes inp : List UInt8} (hn : bytes.length < n)
    (h : ∀ b ∈ bytes, b ≠ EOF ∧ b ≠ NEWLINE) :
    scanLine n (bytes ++ NEWLINE :: inp) = (bytes, some NEWLINE, inp) := by
  induction bytes generalizing n with
  | nil =>
    cases n with
    | zero => exact absurd hn (Nat.not_lt_zero _)
    | succ n => exact if_pos (.inr rfl)
  | cons b bytes ih =>
    cases n with
    | zero => exact absurd hn (Nat.not_lt_zero _)
    | succ n =>
      obtain ⟨hb, hrest⟩ := List.forall_mem_cons.mp h
      have hne : ¬ (b = EOF ∨ b = NEWLINE) := not_or.mpr hb
      rw [List.cons_append, scanLine, if_neg hne, ih (Nat.lt_of_succ_lt_succ hn) hrest]

theorem getLine_line (l : Line) {buf : List UInt8} (inp : List UInt8) (hbuf : buf.length = BUFSIZE) :
    ∃ buf', getLine buf (l.bytes ++ NEWLINE :: inp) = .ok (true, buf', inp) ∧
      buf'.length = BUFSIZE ∧ cstr buf' = cstr l.buf := by
  have hfits := l.fits
  have hscan : scanLine (buf.length - 1) (l.bytes ++ NEWLINE :: inp) =
      (l.bytes, some NEWLINE, inp) := scanLine_line (by omega) l.plain
  refine ⟨l.bytes ++ NEWLINE :: NUL :: buf.drop (l.bytes.length + 2), ?_, ?_, ?_⟩
  · unfold getLine
    simp only [hscan]
    exact if_neg (by decide)
  · simp only [List.length_append, List.length_cons, List.length_drop]
    omega
  · have hend : l.buf = l.bytes ++ [NEWLINE] ++ NUL :: [] := by simp [Line.buf]
    rw [List.append_cons, cstr_nul, hend, cstr_nul]

theorem line_congr {buf buf' : List UInt8} (h : cstr buf = cstr buf') :
    line strtod c buf = line strtod c buf' := by
  rw [line, line, h]

/-- How a run ends: with the end of the input, or where the calculator gave up. -/
def exitOf : Option (Calc D) → Exit
  | some _ => .success
  | none => .failure

theorem calculatorLoop_lines {fuel : Nat} {buf : List UInt8} {ls : List Line}
    (hbuf : buf.length = BUFSIZE) (hfuel : ls.length < fuel) :
    calculatorLoop strtod fuel c buf (fileOf ls) =
      session strtod c ls >>= fun r => .ok (exitOf r.1, r.2) := by
  induction ls generalizing fuel c buf with
  | nil =>
    cases fuel with
    | zero => exact absurd hfuel (Nat.not_lt_zero _)
    | succ fuel =>
      have hscan : scanLine (buf.length - 1) [] = ([], some EOF, []) := by
        rw [hbuf]
        rfl
      rw [calculatorLoop, fileOf, List.flatMap_nil, getLine]
      simp only [hscan]
      rfl
  | cons l ls ih =>
    cases fuel with
    | zero => exact absurd hfuel (Nat.not_lt_zero _)
    | succ fuel =>
      have hfile : fileOf (l :: ls) = l.bytes ++ NEWLINE :: fileOf ls := by
        simp [fileOf]
      obtain ⟨buf', hget, hlen, hcstr⟩ := getLine_line l (fileOf ls) hbuf
      rw [hfile, calculatorLoop, hget, session]
      show (line strtod c buf' >>= _) = _
      rw [line_congr hcstr]
      cases line strtod c l.buf with
      | error crash => rfl
      | ok r =>
        obtain ⟨next, said⟩ := r
        cases next with
        | none => rfl
        | some c' =>
          show (calculatorLoop strtod fuel c' buf' (fileOf ls) >>= _) = _
          rw [ih hlen (Nat.lt_of_succ_lt_succ hfuel)]
          show _ = (session strtod c' ls >>= _) >>= _
          cases session strtod c' ls with
          | error crash => rfl
          | ok r => rfl

/-- **The program on a file of lines is the session over them.** -/
theorem calculator_lines (strtod : List UInt8 → D × Bool) (ls : List Line) :
    calculator strtod (fileOf ls) =
      session strtod Calc.init ls >>= fun r => .ok (exitOf r.1, r.2) := by
  refine calculatorLoop_lines List.length_replicate (Nat.lt_succ_of_le ?_)
  induction ls with
  | nil => exact Nat.le_refl 0
  | cons l ls ih =>
    simp only [fileOf, List.flatMap_cons, List.length_append, List.length_cons] at ih ⊢
    omega

/-! ## 2. The line of an expression -/

/-- Words with spaces in front of them, and the newline behind the last. -/
def spread : List (Nat × List UInt8) → List UInt8
  | [] => [NEWLINE]
  | [(gap, word)] => List.replicate gap 32 ++ (word ++ [NEWLINE])
  | (gap, word) :: rest => List.replicate gap 32 ++ (word ++ 32 :: spread rest)

/-- The tokens of an expression in a line; `gaps` are the spaces in front of each of them, beyond
    the one that separates it from the token before. -/
def expressionLine (t : Expr) (gaps : List Nat) : List UInt8 :=
  spread (gaps.zip (t.rpn.map Token.text))

theorem Token.text_ne_nil (t : Token) : t.text ≠ [] := by
  cases t with
  | lit l => exact List.append_ne_nil_of_right_ne_nil _ l.digits_ne
  | oper op => exact List.cons_ne_nil _ _

/-- The bytes that end something. -/
def TERMINATORS : List UInt8 := [32, NUL, NEWLINE, EOF]

theorem digit_plain {b : UInt8} (hd : isdigit b) : b ∉ TERMINATORS := by
  have hno : ∀ b ∈ TERMINATORS, isdigit b = false := by decide +kernel
  intro hmem
  exact absurd (hd.symm.trans (hno b hmem)) (by simp)

theorem Token.text_plain (t : Token) : ∀ b ∈ t.text, b ∉ TERMINATORS := by
  intro b hb
  cases t with
  | lit l =>
    obtain ⟨negative, ds, hne, hds⟩ := l
    cases negative with
    | false => exact digit_plain (hds b hb)
    | true =>
      rcases List.mem_cons.mp hb with rfl | hb
      · decide
      · exact digit_plain (hds b hb)
  | oper op =>
    rw [List.mem_singleton.mp hb]
    cases op <;> decide

theorem not_space {b : UInt8} (h : b ∉ TERMINATORS) : b ∉ SPACE := by
  intro hspace
  rw [List.mem_singleton.mp hspace] at h
  exact h (by decide)

theorem gap_spaces (n : Nat) : ∀ b ∈ List.replicate n (32 : UInt8), b ∈ SPACE := by
  intro b hb
  rw [List.eq_of_mem_replicate hb]
  decide

theorem strtokAll_nil (delims : List UInt8) (fuel : Nat) : (strtokAll delims fuel []).1 = [] := by
  cases fuel with
  | zero => rfl
  | succ fuel => rfl

theorem strtokAll_last (fuel gap : Nat) {tok : List UInt8} (hne : tok ≠ [])
    (hspace : ∀ b ∈ tok, b ∉ SPACE) :
    (strtokAll SPACE (fuel + 1) (List.replicate gap 32 ++ tok)).1 = [tok] := by
  rw [strtokAll, strtok_last (gap_spaces gap) hne hspace]
  show tok :: (strtokAll SPACE fuel []).1 = _
  rw [strtokAll_nil]

theorem strtokAll_word (fuel gap : Nat) {word : List UInt8} (hne : word ≠ [])
    (hspace : ∀ b ∈ word, b ∉ SPACE) (rest : List UInt8) :
    (strtokAll SPACE (fuel + 1) (List.replicate gap 32 ++ (word ++ 32 :: rest))).1 =
      word :: (strtokAll SPACE fuel rest).1 := by
  rw [strtokAll, strtok_word (gap_spaces gap) hne hspace (by decide)]

/-- `strtok` finds the words of a line, the last with the newline. -/
theorem strtokAll_spread {toks : List Token} {gaps : List Nat} (hlen : gaps.length = toks.length)
    (hne : toks ≠ []) {fuel : Nat} (hfuel : toks.length < fuel) :
    Spells toks (strtokAll SPACE fuel (spread (gaps.zip (toks.map Token.text)))).1 := by
  induction toks generalizing gaps fuel with
  | nil => exact absurd rfl hne
  | cons t toks ih =>
    obtain ⟨fuel, rfl⟩ : ∃ n, fuel = n + 1 := ⟨fuel - 1, by omega⟩
    obtain ⟨gap, gaps, rfl⟩ := List.exists_cons_of_length_eq_add_one hlen
    cases toks with
    | nil =>
      have hnil : gaps = [] := List.length_eq_zero_iff.mp (Nat.succ.inj hlen)
      have hword : ∀ b ∈ t.text ++ [NEWLINE], b ∉ SPACE := by
        intro b hb
        rcases List.mem_append.mp hb with hb | hb
        · exact not_space (t.text_plain b hb)
        · rw [List.mem_singleton.mp hb]
          decide
      subst hnil
      show Spells [t] (strtokAll SPACE (fuel + 1) (List.replicate gap 32 ++ (t.text ++ [NEWLINE]))).1
      rw [strtokAll_last fuel gap (List.append_ne_nil_of_left_ne_nil t.text_ne_nil _) hword]
      exact .cons ⟨[NEWLINE], .inr rfl, rfl⟩ .nil
    | cons t' toks =>
      obtain ⟨gap', gaps, rfl⟩ := List.exists_cons_of_length_eq_add_one (Nat.succ.inj hlen)
      show Spells (t :: t' :: toks) (strtokAll SPACE (fuel + 1) (List.replicate gap 32 ++
        (t.text ++ 32 :: spread ((gap' :: gaps).zip ((t' :: toks).map Token.text))))).1
      rw [strtokAll_word fuel gap t.text_ne_nil fun b hb => not_space (t.text_plain b hb)]
      refine .cons ⟨[], .inl rfl, (List.append_nil _).symm⟩ ?_
      exact ih (Nat.succ.inj hlen) (List.cons_ne_nil _ _) (Nat.lt_of_succ_lt_succ hfuel)

theorem Expr.rpn_ne_nil (t : Expr) : t.rpn ≠ [] := by
  cases t with
  | lit l => exact List.cons_ne_nil _ _
  | bin op l r => exact List.append_ne_nil_of_right_ne_nil _ (List.cons_ne_nil _ _)

/-- A token and the space or newline behind it. -/
theorem length_spread {toks : List Token} {gaps : List Nat} (hlen : gaps.length = toks.length) :
    2 * toks.length ≤ (spread (gaps.zip (toks.map Token.text))).length := by
  induction toks generalizing gaps with
  | nil => exact Nat.zero_le _
  | cons t toks ih =>
    obtain ⟨gap, gaps, rfl⟩ := List.exists_cons_of_length_eq_add_one hlen
    have htext := List.length_pos_iff.mpr t.text_ne_nil
    cases toks with
    | nil =>
      rw [List.length_eq_zero_iff.mp (Nat.succ.inj hlen)]
      show 2 ≤ (List.replicate gap 32 ++ (t.text ++ [NEWLINE])).length
      simp only [List.length_append, List.length_cons, List.length_nil]
      omega
    | cons t' toks =>
      have hrest := ih (Nat.succ.inj hlen)
      obtain ⟨gap', gaps, rfl⟩ := List.exists_cons_of_length_eq_add_one (Nat.succ.inj hlen)
      show 2 * (toks.length + 1 + 1) ≤ (List.replicate gap 32 ++
        (t.text ++ 32 :: spread ((gap' :: gaps).zip ((t' :: toks).map Token.text)))).length
      simp only [List.length_append, List.length_cons] at hrest ⊢
      omega

/-- A line has its newline at the end, and none of the other bytes that would end it. -/
theorem spread_eq {words : List (Nat × List UInt8)}
    (h : ∀ w ∈ words, ∀ b ∈ w.2, b ∉ TERMINATORS) :
    ∃ bytes, spread words = bytes ++ [NEWLINE] ∧
      ∀ b ∈ bytes, b ≠ NUL ∧ b ≠ EOF ∧ b ≠ NEWLINE := by
  have hplain : ∀ b, b ∉ TERMINATORS → b ≠ NUL ∧ b ≠ EOF ∧ b ≠ NEWLINE := by
    intro b hb
    refine ⟨?_, ?_, ?_⟩ <;> rintro rfl <;> exact hb (by decide)
  have hspace : ∀ n, ∀ b ∈ List.replicate n (32 : UInt8), b ≠ NUL ∧ b ≠ EOF ∧ b ≠ NEWLINE := by
    intro n b hb
    rw [List.eq_of_mem_replicate hb]
    decide
  fun_induction spread words with
  | case1 => exact ⟨[], rfl, fun b hb => absurd hb List.not_mem_nil⟩
  | case2 gap word =>
    refine ⟨List.replicate gap 32 ++ word, (List.append_assoc ..).symm, fun b hb => ?_⟩
    rcases List.mem_append.mp hb with hb | hb
    · exact hspace gap b hb
    · exact hplain b (h (gap, word) List.mem_cons_self b hb)
  | case3 gap word rest hne ih =>
    obtain ⟨bytes, hrest, hbytes⟩ := ih fun w hw => h w (List.mem_cons_of_mem _ hw)
    refine ⟨List.replicate gap 32 ++ (word ++ 32 :: bytes), ?_, fun b hb => ?_⟩
    · rw [hrest]
      simp
    · rcases List.mem_append.mp hb with hb | hb
      · exact hspace gap b hb
      · rcases List.mem_append.mp hb with hb | hb
        · exact hplain b (h (gap, word) List.mem_cons_self b hb)
        · rcases List.mem_cons.mp hb with rfl | hb
          · decide
          · exact hbytes b hb

theorem expressionLine_eq (t : Expr) (gaps : List Nat) :
    ∃ bytes, expressionLine t gaps = bytes ++ [NEWLINE] ∧
      ∀ b ∈ bytes, b ≠ NUL ∧ b ≠ EOF ∧ b ≠ NEWLINE := by
  refine spread_eq fun w hw b hb => ?_
  obtain ⟨tok, -, htok⟩ := List.mem_map.mp (List.of_mem_zip hw).2
  rw [← htok] at hb
  exact tok.text_plain b hb

theorem spells_expressionLine {t : Expr} {gaps : List Nat} {buf : List UInt8}
    (hlen : gaps.length = t.rpn.length) (hbuf : cstr buf = expressionLine t gaps) :
    Spells t.rpn (tokens SPACE (cstr buf)).1 := by
  have hlength := length_spread hlen
  rw [hbuf]
  refine strtokAll_spread hlen t.rpn_ne_nil ?_
  show t.rpn.length < (spread _).length + 1
  omega

/-! ## 3. An expression is evaluated -/

/-- What is seen of the line of an expression: whether the calculator goes on, and what it writes. -/
def Expr.shown (strtod : List UInt8 → D × Bool) (t : Expr) : Except Crash (Exit × List Said) :=
  match t.evaluate strtod with
  | .ok x => .ok (.success, [.value (Arithmetic.printG x)])
  | .error (.crash crash) => .error crash
  | .error (.reset said) => .ok (.success, said)
  | .error .disgrace => .ok (.failure, [])

/-- The loop over the tokens of a line that holds an expression. -/
theorem tokenLoop_line (hn : StopsAtNewline strtod) {t : Expr} {gaps : List Nat} {buf : List UInt8}
    (hroom : c.stack.idx + t.depth ≤ ARRAYSIZE) (hrem : t.hasRem → c.type = .INT)
    (hlen : gaps.length = t.rpn.length) (hbuf : cstr buf = expressionLine t gaps) :
    Comes (tokenLoop strtod c (tokens SPACE (cstr buf)).1) (fun x => .ok (.next, c.after x, []))
      (t.evaluate strtod) := by
  have hloop := tokenLoop_rpn hn hroom hrem [] (spells_expressionLine hlen hbuf)
  rw [List.append_nil] at hloop
  exact hloop

/-- A line that is evaluated prints the value, and leaves the stack as it was. -/
theorem line_value (hn : StopsAtNewline strtod) {t : Expr} {gaps : List Nat} {buf : List UInt8}
    {x : D} (hroom : c.stack.idx + t.depth ≤ ARRAYSIZE) (hrem : t.hasRem → c.type = .INT)
    (hlen : gaps.length = t.rpn.length) (hbuf : cstr buf = expressionLine t gaps)
    (hval : t.evaluate strtod = .ok x) : line strtod c buf =
      .ok (some ⟨c.stack, Arithmetic.ofInt 0, .INT⟩, [.value (Arithmetic.printG x)]) := by
  have hloop := tokenLoop_line hn hroom hrem hlen hbuf
  rw [hval] at hloop
  have hdepth := t.depth_pos
  have hlt : c.stack.idx < ARRAYSIZE := by omega
  have hfinish : finishLine (c.after x) =
      (⟨c.stack, Arithmetic.ofInt 0, .INT⟩, [.value (Arithmetic.printG x)]) := by
    have hpop : pop (c.after x).stack = (x, c.stack) := pop_push hlt
    have hpos : (c.after x).stack.idx > 0 := push_pos _ _
    rw [finishLine, if_pos hpos, hpop]
  have hrun : tokenLoop strtod c (tokens SPACE (cstr buf)).1 = .ok (.next, c.after x, []) := hloop
  rw [line, hrun]
  show (Except.ok (some (finishLine (c.after x)).1, [] ++ (finishLine (c.after x)).2) :
    Except Crash (Option (Calc D) × List Said)) = _
  rw [hfinish]
  rfl

theorem line_shown (hn : StopsAtNewline strtod) {t : Expr} {gaps : List Nat} {buf : List UInt8}
    (hroom : c.stack.idx + t.depth ≤ ARRAYSIZE) (hrem : t.hasRem → c.type = .INT)
    (hlen : gaps.length = t.rpn.length) (hbuf : cstr buf = expressionLine t gaps) :
    (line strtod c buf).map (fun r => (exitOf r.1, r.2)) = t.shown strtod := by
  have hloop := tokenLoop_line hn hroom hrem hlen hbuf
  unfold Expr.shown
  cases hval : t.evaluate strtod with
  | ok x =>
    rw [line_value hn hroom hrem hlen hbuf hval]
    rfl
  | error stop =>
    rw [hval] at hloop
    cases stop with
    | crash crash =>
      have hrun : tokenLoop strtod c (tokens SPACE (cstr buf)).1 = .error crash := hloop
      rw [line, hrun]
      rfl
    | reset said =>
      obtain ⟨c', hrun⟩ := hloop
      rw [line, hrun]
      rfl
    | disgrace =>
      obtain ⟨c', hrun⟩ := hloop
      rw [line, hrun]
      rfl

/-- **The token loop puts the value of an expression on top of the stack it started with, and a
    line with the expression prints it.** -/
theorem expression_evaluated (hx : Decimal strtod) (hn : StopsAtNewline strtod) {t : Expr}
    (hl : t.LiteralsInRange strtod) (hz : t.NoZeroDivisor D) (hr : t.RemInRange D)
    (hq : t.QuotientsInRange D) (htype : c.type = .INT)
    (hroom : c.stack.idx + t.depth ≤ ARRAYSIZE) :
    (∀ texts, Spells t.rpn texts → ∃ c', tokenLoop strtod c texts = .ok (.next, c', []) ∧
      c'.stack.items = t.value :: c.stack.items ∧ c'.type = .INT) ∧
    (∀ gaps buf, gaps.length = t.rpn.length → cstr buf = expressionLine t gaps →
      line strtod c buf = .ok (some ⟨c.stack, Arithmetic.ofInt 0, .INT⟩,
        [.value (Arithmetic.printG (t.value : D))])) := by
  have heval := Expr.evaluate_eq hx hl hz hr hq
  have hdepth := t.depth_pos
  constructor
  · intro texts ht
    have hloop := tokenLoop_rpn hn hroom (fun _ => htype) [] ht
    rw [List.append_nil, heval] at hloop
    exact ⟨c.after t.value, hloop, push_items (by omega), htype⟩
  · intro gaps buf hlen hbuf
    exact line_value hn hroom (fun _ => htype) hlen hbuf heval

def number (negative : Bool) (ds : String) (hne : ascii ds ≠ [])
    (hds : ∀ b ∈ ascii ds, isdigit b) : Expr := .lit ⟨negative, ascii ds, hne, hds⟩

/-- `7 2 -`. -/
def difference : Expr :=
  .bin .sub (number false "7" (by decide) (by decide +kernel))
    (number false "2" (by decide) (by decide +kernel))

theorem expression_evaluated_difference :
    (∀ texts, Spells difference.rpn texts → ∃ c',
      tokenLoop strtodDecimal (Calc.init : Calc Float) texts = .ok (.next, c', []) ∧
        c'.stack.items = [difference.value] ∧ c'.type = .INT) ∧
    (∀ gaps buf, gaps.length = difference.rpn.length →
      cstr buf = expressionLine difference gaps →
        line strtodDecimal (Calc.init : Calc Float) buf =
          .ok (some Calc.init, [.value (Arithmetic.printG (difference.value : Float))])) :=
  expression_evaluated decimal_strtodDecimal stopsAtNewline_strtodDecimal
    ⟨show (strtodDecimal (D := Float) (ascii "7")).2 = false from by decide +kernel,
      show (strtodDecimal (D := Float) (ascii "2")).2 = false from by decide +kernel⟩
    ⟨trivial, trivial, nofun, nofun⟩
    ⟨trivial, trivial, nofun⟩ ⟨trivial, trivial, nofun⟩ rfl (by decide)

/-- `-2147483648 -1 %`. -/
def minRemainder : Expr :=
  .bin .rem (number true "2147483648" (by decide) (by decide +kernel))
    (number true "1" (by decide) (by decide +kernel))

/-- A number of 310 digits. -/
def vast : List UInt8 := List.replicate 310 57

/-- The remainder of `INT_MIN` and `-1` traps, a number of 310 digits ends the program, and seven digits
    are printed as six. -/
theorem remainder_of_min_crashes :
    (minRemainder.NoZeroDivisor Float ∧ minRemainder.RemInRange Float ∧
      (minRemainder.value : Float) = 0 ∧
      (Calc.init : Calc Float).stack.idx + minRemainder.depth ≤ ARRAYSIZE ∧
      line strtodDecimal (Calc.init : Calc Float) (ascii "-2147483648 -1 %\n") =
        .error .remainder) ∧
    line strtodDecimal (Calc.init : Calc Float) (vast ++ [NEWLINE]) = .ok (none, []) ∧
    line strtodDecimal (Calc.init : Calc Float) (ascii "1234567\n") =
      .ok (some Calc.init, [.value (ascii "1.23457e+06")]) := by
  refine ⟨⟨⟨trivial, trivial, nofun, fun _ => ?_⟩, ⟨trivial, trivial, fun _ => ⟨?_, ?_⟩⟩, ?_, ?_, ?_⟩,
    ?_, ?_⟩
  · decide +kernel
  · exact ⟨-2147483648, by decide +kernel, by decide⟩
  · exact ⟨-1, by decide +kernel, by decide⟩
  · decide +kernel
  · decide
  · decide +kernel
  · decide +kernel
  · decide +kernel

end Calculator
end Labs
