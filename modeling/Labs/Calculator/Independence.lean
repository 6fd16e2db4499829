import Labs.Calculator.Lines

/-!
# A line after other lines

Three things live on from line to line: the stack, `val` and `type`. Of these `val` is always set
before it is used. What is left on the stack does not change what a later line prints, as long as
there is room on top of it; and `type` only matters to a `%`. So a line of an expression prints
the same as in a fresh calculator where both are `Clean`.

They need not be. A line with more operands than operators leaves items behind, so the stack fills
up; and the label `reset` is also reached from the checks of `/` and `%`, where `type` is what the
line has made of it, and skips the end of the line that would restore it. Both show in what some
line prints: a remainder in the wrong `type` prints nothing (`outcome_double`), and a number there is no
room for is dropped, so that `0 0 … 0 +` and `0 0 … 1 +` print the same (`outcome_dropped`).

What `strtod` does with a line is the same in both runs. All that is needed of it is that it stops in
front of the newline, and for the lines that tell the runs apart, that it reads a digit (`ReadsDigits`).

## The two directions

That a clean line does what it does first is one induction over its expression, in `Evaluate`; here
it is only carried from a line to a session (`outcome_clean`). The other direction is about *all*
lines: if every expression without a zero divisor does what it does first, then the state is clean
for all of them. It is proved by two probes. A remainder of two literals finds out whether `type` is
the one it needs (`outcome_double`). A long sum finds out whether there is room: with too few places
on the stack its last number is dropped, so it does not matter which one it is, while a fresh
calculator prints two different results (`outcome_dropped`, `shown_sumOf`).

The numbers are those of any `Arithmetic`, so nothing here depends on rounding. The sums of the
second probe are of zeros and a single one, which every arithmetic adds up exactly
(`evaluate_sumOf`).

Lines after which the calculator has given up are not considered: `Leaves` asks that it is still
running.
-/

namespace Labs
namespace Calculator

open Lib

variable {D : Type} [Arithmetic D] {strtod : List UInt8 → D × Bool} {c : Calc D}

/-- The line of an expression over integers. -/
structure ExpressionLine extends Line where
  expr : Expr
  gaps : List Nat
  size : gaps.length = expr.rpn.length
  spells : bytes ++ [NEWLINE] = expressionLine expr gaps

/-- What the calculator writes for a line behind others, and whether it gives up. -/
def outcome (strtod : List UInt8 → D × Bool) (h : List Line) (l : Line) :
    Except Crash (Exit × Option (List Said)) :=
  (calculator strtod (fileOf (h ++ [l]))).map fun r => (r.1, r.2[h.length]?)

/-- The lines leave the calculator running, as `c`. -/
def Leaves (strtod : List UInt8 → D × Bool) (h : List Line) (c : Calc D) : Prop :=
  ∃ said, session strtod Calc.init h = .ok (some c, said)

/-- There is room for the expression, and the type is what a remainder needs. -/
def Clean (c : Calc D) (t : Expr) : Prop :=
  c.stack.idx + t.depth ≤ ARRAYSIZE ∧ (t.hasRem → c.type = .INT)

/-! ## 1. The last line of a file -/

theorem session_cons {c' : Calc D} {out : List Said} (l : Line) (h : List Line)
    (hl : line strtod c l.buf = .ok (some c', out)) :
    session strtod c (l :: h) = (session strtod c' h).map fun r => (r.1, out :: r.2) := by
  rw [session, hl]
  show (session strtod c' h >>= fun r => pure (r.1, out :: r.2)) = _
  cases session strtod c' h with
  | error crash => rfl
  | ok r => rfl

/-- Lines that leave the calculator running: the first does, and then the others do. -/
theorem session_cons_ok {l : Line} {h : List Line} {next : Calc D} {said : List (List Said)}
    (hrun : session strtod c (l :: h) = .ok (some next, said)) :
    ∃ c' out later, line strtod c l.buf = .ok (some c', out) ∧
      session strtod c' h = .ok (some next, later) ∧ said = out :: later := by
  cases hl : line strtod c l.buf with
  | error crash =>
    rw [session, hl] at hrun
    cases hrun
  | ok r =>
    obtain ⟨c', out⟩ := r
    cases c' with
    | none =>
      rw [session, hl] at hrun
      cases hrun
    | some c' =>
      rw [session_cons l h hl] at hrun
      cases hs : session strtod c' h with
      | error crash =>
        rw [hs] at hrun
        cases hrun
      | ok r =>
        obtain ⟨last, later⟩ := r
        rw [hs] at hrun
        cases hrun
        exact ⟨c', out, later, rfl, hs, rfl⟩

theorem session_said {h : List Line} {next : Calc D} {said : List (List Said)}
    (hrun : session strtod c h = .ok (some next, said)) : said.length = h.length := by
  induction h generalizing c said with
  | nil =>
    cases hrun
    rfl
  | cons l h ih =>
    obtain ⟨c', out, later, -, hs, rfl⟩ := session_cons_ok hrun
    rw [List.length_cons, List.length_cons, ih hs]

/-- A line behind lines that leave the calculator running. -/
theorem session_snoc {h : List Line} {next : Calc D} {said : List (List Said)} (l : Line)
    (hrun : session strtod c h = .ok (some next, said)) :
    session strtod c (h ++ [l]) =
      (line strtod next l.buf).map fun r => (r.1, said ++ [r.2]) := by
  induction h generalizing c said with
  | nil =>
    cases hrun
    rw [List.nil_append, session]
    cases line strtod next l.buf with
    | error crash => rfl
    | ok r =>
      obtain ⟨c', out⟩ := r
      cases c' with
      | none => rfl
      | some c' => rfl
  | cons l' h ih =>
    obtain ⟨c', out, later, hl, hs, rfl⟩ := session_cons_ok hrun
    rw [List.cons_append, session_cons l' (h ++ [l]) hl, ih hs]
    cases line strtod next l.buf with
    | error crash => rfl
    | ok r => rfl

theorem outcome_eq {h : List Line} (l : Line) (hc : Leaves strtod h c) :
    outcome strtod h l = (line strtod c l.buf).map fun r => (exitOf r.1, some r.2) := by
  obtain ⟨said, hrun⟩ := hc
  have hlen := session_said hrun
  rw [outcome, calculator_lines, session_snoc l hrun]
  cases line strtod c l.buf with
  | error crash => rfl
  | ok r =>
    show Except.ok (exitOf r.1, (said ++ [r.2])[h.length]?) = Except.ok (exitOf r.1, some r.2)
    rw [← hlen, List.getElem?_concat_length]

theorem leaves_nil (strtod : List UInt8 → D × Bool) : Leaves strtod [] Calc.init :=
  ⟨[], rfl⟩

theorem ExpressionLine.cstr_buf (l : ExpressionLine) :
    cstr l.buf = expressionLine l.expr l.gaps := by
  obtain ⟨bytes, heq, hplain⟩ := expressionLine_eq l.expr l.gaps
  have hbuf : l.buf = expressionLine l.expr l.gaps ++ NUL :: [] := by
    rw [← l.spells, Line.buf]
    simp
  rw [hbuf]
  refine cstr_append_nul ?_ []
  rw [heq]
  intro hm
  rcases List.mem_append.mp hm with hm | hm
  · exact (hplain NUL hm).1 rfl
  · exact absurd hm (by decide)

/-! ## 2. Clean lines -/

/-- A line that finds what it needs does what it does in any state. -/
theorem outcome_clean (hn : StopsAtNewline strtod) {h : List Line} {l : ExpressionLine}
    (hc : Leaves strtod h c) (hl : Clean c l.expr) : outcome strtod h l.toLine =
      (l.expr.shown strtod).map fun r => (r.1, some r.2) := by
  rw [outcome_eq l.toLine hc, ← line_shown hn hl.1 hl.2 l.size l.cstr_buf]
  cases line strtod c l.buf with
  | error crash => rfl
  | ok r => rfl

/-- No line is too deep for an empty stack: its tokens would not fit into the buffer. -/
theorem Expr.depth_le (t : Expr) : 2 * t.depth ≤ t.rpn.length + 1 := by
  induction t with
  | lit l => exact Nat.le_refl 2
  | bin op l r ihl ihr =>
    have hl := List.length_pos_iff.mpr l.rpn_ne_nil
    simp only [depth, Expr.rpn, List.length_append, List.length_cons, List.length_nil]
    omega

theorem ExpressionLine.depth_le (l : ExpressionLine) : l.expr.depth ≤ 128 := by
  have hfits := l.fits
  have hdepth := l.expr.depth_le
  have hlength := length_spread l.size
  have hbytes := congrArg List.length l.spells
  rw [List.length_append, List.length_singleton] at hbytes
  rw [← expressionLine, ← hbytes] at hlength
  unfold BUFSIZE at hfits
  omega

theorem clean_init (l : ExpressionLine) : Clean (Calc.init : Calc D) l.expr :=
  ⟨Nat.le_trans (Nat.le_of_eq (Nat.zero_add _)) (Nat.le_trans l.depth_le (by decide)), fun _ => rfl⟩

theorem outcome_same (hn : StopsAtNewline strtod) {h : List Line} {l : ExpressionLine}
    (hc : Leaves strtod h c) (hl : Clean c l.expr) :
    outcome strtod h l.toLine = outcome strtod [] l.toLine := by
  rw [outcome_clean hn hc hl, outcome_clean hn (leaves_nil strtod) (clean_init l)]

/-! ## 3. Lines that are not clean -/

/-- An expression in a line, with single spaces. -/
def Expr.inLine (t : Expr)
    (hfits : (expressionLine t (List.replicate t.rpn.length 0)).length < BUFSIZE) :
    ExpressionLine where
  bytes := (expressionLine t (List.replicate t.rpn.length 0)).dropLast
  plain := by
    obtain ⟨bytes, heq, hplain⟩ := expressionLine_eq t (List.replicate t.rpn.length 0)
    rw [heq, List.dropLast_concat]
    exact fun b hb => (hplain b hb).2
  fits := by
    obtain ⟨bytes, heq, -⟩ := expressionLine_eq t (List.replicate t.rpn.length 0)
    rw [heq, List.length_append] at hfits
    rw [heq, List.dropLast_concat]
    exact hfits
  expr := t
  gaps := List.replicate t.rpn.length 0
  size := List.length_replicate
  spells := by
    obtain ⟨bytes, heq, -⟩ := expressionLine_eq t (List.replicate t.rpn.length 0)
    rw [heq, List.dropLast_concat]

theorem length_spread_single {toks : List Token} (hne : toks ≠ [])
    (hone : ∀ t ∈ toks, t.text.length = 1) :
    (spread ((List.replicate toks.length 0).zip (toks.map Token.text))).length =
      2 * toks.length := by
  induction toks with
  | nil => exact absurd rfl hne
  | cons t toks ih =>
    obtain ⟨ht, hrest⟩ := List.forall_mem_cons.mp hone
    cases toks with
    | nil =>
      show (List.replicate 0 32 ++ (t.text ++ [NEWLINE])).length = 2
      simp [ht]
    | cons t' toks =>
      have hlen := ih (List.cons_ne_nil _ _) hrest
      show (List.replicate 0 32 ++ (t.text ++ 32 ::
        spread ((List.replicate (t' :: toks).length 0).zip ((t' :: toks).map Token.text)))).length = _
      rw [List.replicate_zero, List.nil_append, List.length_append, List.length_cons, hlen, ht]
      simp only [List.length_cons]
      omega

def zero : Literal := digit 48 (by decide)
def one : Literal := digit 49 (by decide)

/-- `1 1 %`. -/
def remainderLine : ExpressionLine :=
  (Expr.bin .rem (.lit one) (.lit one)).inLine (by decide +kernel)

/-- `n` zeros and a number, added up from the right. -/
def sumOf (l : Literal) : Nat → Expr
  | 0 => .lit l
  | n + 1 => .bin .add (.lit zero) (sumOf l n)

theorem noZeroDivisor_sumOf (D : Type) [Arithmetic D] (l : Literal) (n : Nat) :
    (sumOf l n).NoZeroDivisor D := by
  induction n with
  | zero => trivial
  | succ n ih => exact ⟨trivial, ih, nofun, nofun⟩

/-- First the numbers, then the signs. -/
theorem rpn_sumOf (l : Literal) (n : Nat) : (sumOf l n).rpn =
    List.replicate n (.lit zero) ++ (.lit l :: List.replicate n (.oper .add)) := by
  induction n with
  | zero => rfl
  | succ n ih =>
    have hsigns : List.replicate (n + 1) (Token.oper .add) =
        List.replicate n (.oper .add) ++ [.oper .add] := List.replicate_succ'
    rw [sumOf, Expr.rpn, Expr.rpn, ih, hsigns]
    simp [List.replicate_succ]

theorem fits_sumOf {l : Literal} {n : Nat} (hl : l.negative = false ∧ l.digits.length = 1)
    (hn : n ≤ 127) :
    (expressionLine (sumOf l n) (List.replicate (sumOf l n).rpn.length 0)).length <
      BUFSIZE := by
  have hone : ∀ t ∈ (sumOf l n).rpn, t.text.length = 1 := by
    intro t ht
    rw [rpn_sumOf] at ht
    rcases List.mem_append.mp ht with ht | ht
    · rw [List.eq_of_mem_replicate ht]
      rfl
    · rcases List.mem_cons.mp ht with rfl | ht
      · rw [Token.text, hl.1]
        exact hl.2
      · rw [List.eq_of_mem_replicate ht]
        rfl
  rw [expressionLine, length_spread_single (Expr.rpn_ne_nil _) hone, rpn_sumOf]
  simp only [List.length_append, List.length_cons, List.length_replicate, BUFSIZE]
  omega

/-- The sum in a line. -/
def sumLine (l : Literal) (hl : l.negative = false ∧ l.digits.length = 1) (n : Nat)
    (hn : n ≤ 127) : ExpressionLine :=
  (sumOf l n).inLine (fits_sumOf hl hn)

theorem ExpressionLine.spells_words (l : ExpressionLine) :
    Spells l.expr.rpn (tokens SPACE (cstr l.buf)).1 :=
  spells_expressionLine l.size l.cstr_buf

/-- `strtod` reads a digit, as what it is in this arithmetic. -/
def ReadsDigits (strtod : List UInt8 → D × Bool) : Prop :=
  ∀ b, isdigit b → strtod [b] = (Arithmetic.ofDecimal (digitsValue [b]) 0, false)

/-- A digit is pushed, with a newline behind it or without. -/
theorem step_digit (hn : StopsAtNewline strtod) (hd : ReadsDigits strtod) {b : UInt8}
    (hb : isdigit b) {e : List UInt8} (he : LineEnd e) :
    step strtod c ((Token.lit (digit b hb)).text ++ e) =
      .ok (.next, c.after (Arithmetic.ofDecimal (digitsValue [b]) 0), []) := by
  have hread : strtod ((digit b hb).numeral.unsigned ++ e) =
      (Arithmetic.ofDecimal (digitsValue [b]) 0, false) := by
    rcases he with rfl | rfl
    · rw [List.append_nil, Literal.unsigned_eq]
      exact hd b hb
    · rw [hn (digit b hb).numeral, Literal.unsigned_eq]
      exact hd b hb
  have hstep : step strtod c ((digit b hb).numeral.text ++ e) = _ :=
    step_num (digit b hb).numeral he
  rw [hread, Literal.text_eq] at hstep
  exact hstep

/-- Numbers go on the stack as long as there is room. -/
theorem tokenLoop_zeros (hn : StopsAtNewline strtod) (hd : ReadsDigits strtod) {n : Nat}
    (hroom : c.stack.idx + n ≤ ARRAYSIZE) {texts : List (List UInt8)} (more : List (List UInt8))
    (ht : Spells (List.replicate n (.lit zero)) texts) : ∃ c' : Calc D,
      tokenLoop strtod c (texts ++ more) = tokenLoop strtod c' more ∧
        c'.stack.items = List.replicate n (Arithmetic.ofDecimal 0 0) ++ c.stack.items := by
  induction n generalizing c texts with
  | zero =>
    cases ht
    exact ⟨c, rfl, rfl⟩
  | succ n ih =>
    cases ht with
    | cons hl ht =>
      obtain ⟨e, he, rfl⟩ := hl
      have hlt : c.stack.idx < ARRAYSIZE := by omega
      have hpush : (c.after (Arithmetic.ofDecimal 0 0)).stack.idx = c.stack.idx + 1 := push_idx hlt
      obtain ⟨c', hloop, hitems⟩ := ih (c := c.after (Arithmetic.ofDecimal 0 0)) (by omega) ht
      refine ⟨c', (tokenLoop_next (step_digit hn hd (by decide) he)).trans hloop, ?_⟩
      have hafter : (c.after (Arithmetic.ofDecimal 0 0)).stack.items =
          Arithmetic.ofDecimal 0 0 :: c.stack.items := push_items hlt
      rw [hitems, hafter, List.replicate_succ', List.append_assoc]
      rfl

/-- What the stack is behind `n` signs. -/
def addUp : Nat → Stack D → Stack D
  | 0, s => s
  | n + 1, s => addUp n (commuted .ADD ⟨s, Arithmetic.ofInt 0, .INT⟩).2.1.stack

/-- What the signs do does not depend on the number that was read before them. -/
theorem tokenLoop_signs {n : Nat} {texts : List (List UInt8)}
    (ht : Spells (List.replicate n (.oper .add)) texts) : ∃ c' : Calc D,
      tokenLoop strtod c texts = .ok (.next, c', []) ∧ c'.stack = addUp n c.stack := by
  induction n generalizing c texts with
  | zero =>
    cases ht
    exact ⟨c, rfl, rfl⟩
  | succ n ih =>
    cases ht with
    | cons hop ht =>
      obtain ⟨e, he, rfl⟩ := hop
      have hstep : step strtod c ((Token.oper .add).text ++ e) =
          .ok (.next, (commuted .ADD c).2.1, []) := by
        rw [step, parseTok_oper .add he]
        rfl
      obtain ⟨c', hloop, hstack⟩ := ih (c := (commuted .ADD c).2.1) ht
      exact ⟨c', (tokenLoop_next hstep).trans hloop, hstack⟩

/-- **A number that there is no room for is dropped**, so it does not show which one it is. -/
theorem outcome_dropped (hn : StopsAtNewline strtod) (hd : ReadsDigits strtod) {h : List Line}
    (hc : Leaves strtod h c) {n : Nat} (hn' : n ≤ 127) (hfull : c.stack.idx + n = ARRAYSIZE) :
    ∃ said, ∀ (b : UInt8) (hb : isdigit b),
      outcome strtod h (sumLine (digit b hb) ⟨rfl, rfl⟩ n hn').toLine = .ok (.success, some said) := by
  -- the stack is full of zeros when the last number comes
  let full : Stack D := ⟨List.replicate n (Arithmetic.ofDecimal 0 0) ++ c.stack.items, by
    rw [List.length_append, List.length_replicate, Nat.add_comm]
    exact Nat.le_of_eq hfull⟩
  have hidx : full.idx = ARRAYSIZE := by
    show (List.replicate n (Arithmetic.ofDecimal 0 0) ++ c.stack.items).length = _
    rw [List.length_append, List.length_replicate, Nat.add_comm]
    exact hfull
  refine ⟨(finishLine ⟨addUp n full, Arithmetic.ofInt 0, .INT⟩).2, fun b hb => ?_⟩
  have hspells := (sumLine (digit b hb) ⟨rfl, rfl⟩ n hn').spells_words
  have hspells : Spells (sumOf (digit b hb) n).rpn _ := hspells
  rw [rpn_sumOf] at hspells
  obtain ⟨us, vs, htexts, hus, hvs⟩ := hspells.split
  cases hvs with
  | @cons _ text _ signs hlast hsigns =>
    obtain ⟨e, he, rfl⟩ := hlast
    obtain ⟨c₁, hloop₁, hitems₁⟩ := tokenLoop_zeros (c := c) hn hd (Nat.le_of_eq hfull)
      (((Token.lit (digit b hb)).text ++ e) :: signs) hus
    have hstack₁ : c₁.stack = full := Stack.ext hitems₁
    have hstep := step_digit (c := c₁) hn hd hb he
    have hdrop : (c₁.after (Arithmetic.ofDecimal (digitsValue [b]) 0)).stack = full := by
      show push c₁.stack _ = full
      rw [hstack₁, push_full (Nat.le_of_eq hidx.symm)]
    obtain ⟨c₂, hloop₂, hstack₂⟩ := @tokenLoop_signs D _ strtod
      (c₁.after (Arithmetic.ofDecimal (digitsValue [b]) 0)) n signs hsigns
    rw [hdrop] at hstack₂
    have hrun : tokenLoop strtod c (us ++ ((Token.lit (digit b hb)).text ++ e) :: signs) =
        .ok (.next, c₂, []) := hloop₁.trans ((tokenLoop_next hstep).trans hloop₂)
    have hsaid : (finishLine c₂).2 = (finishLine ⟨addUp n full, Arithmetic.ofInt 0, .INT⟩).2 := by
      unfold finishLine
      rw [hstack₂]
    rw [outcome_eq _ hc, line, htexts, hrun]
    show Except.ok (Exit.success, some ([] ++ (finishLine c₂).2)) = _
    rw [hsaid, List.nil_append]

theorem step_rem_double (strtod : List UInt8 → D × Bool) (htype : c.type = .DOUBLE)
    {e : List UInt8} (he : LineEnd e) :
    ∃ c', step strtod c ((Token.oper .rem).text ++ e) =
      .ok (.tryAgain, c', [.remainderOfDouble]) := by
  refine ⟨{ c with stack := (pop c.stack).2.reset }, ?_⟩
  rw [step, parseTok_oper .rem he, htype]
  rfl

theorem tokenLoop_double (hn : StopsAtNewline strtod) (hd : ReadsDigits strtod)
    (htype : c.type = .DOUBLE) {texts : List (List UInt8)}
    (ht : Spells [.lit one, .lit one, .oper .rem] texts) :
    ∃ c', tokenLoop strtod c texts = .ok (.tryAgain, c', [.remainderOfDouble]) := by
  cases ht with
  | cons hleft ht =>
    cases ht with
    | cons hright ht =>
      cases ht with
      | cons hrem hnil =>
        cases hnil
        obtain ⟨e, he, rfl⟩ := hleft
        obtain ⟨e', he', rfl⟩ := hright
        obtain ⟨e'', he'', rfl⟩ := hrem
        have hone : ∀ {c : Calc D} {e : List UInt8}, LineEnd e →
            step strtod c ((Token.lit one).text ++ e) =
              .ok (.next, c.after (Arithmetic.ofDecimal 1 0), []) :=
          fun he => step_digit hn hd (by decide) he
        obtain ⟨c', hstep⟩ := step_rem_double strtod
          (c := (c.after (Arithmetic.ofDecimal 1 0)).after (Arithmetic.ofDecimal 1 0)) htype he''
        refine ⟨c', ?_⟩
        rw [tokenLoop_next (hone he), tokenLoop_next (hone he'), tokenLoop_stop hstep (by decide)]

/-- A remainder in the wrong type is refused, whatever the stack holds. -/
theorem outcome_double (hn : StopsAtNewline strtod) (hd : ReadsDigits strtod) {h : List Line}
    (hc : Leaves strtod h c) (htype : c.type = .DOUBLE) :
    outcome strtod h remainderLine.toLine = .ok (.success, some [.remainderOfDouble]) := by
  obtain ⟨c', hloop⟩ := tokenLoop_double hn hd htype remainderLine.spells_words
  rw [outcome_eq _ hc, line, hloop]
  rfl

/-! ## 4. Independence -/

section Doubles

variable {strtod : List UInt8 → Float × Bool} {c : Calc Float}

theorem evaluate_digit (hd : ReadsDigits strtod) {b : UInt8} (hb : isdigit b) :
    (Expr.lit (digit b hb)).evaluate strtod = .ok (Arithmetic.ofDecimal (digitsValue [b]) 0) := by
  have hread : strtod (digit b hb).digits = _ := hd b hb
  rw [Expr.evaluate, hread]
  rfl

/-- Zeros add nothing to `0` and to `1`. -/
theorem evaluate_sumOf (hd : ReadsDigits strtod) {b : UInt8} (hb : isdigit b)
    (hneutral : (Arithmetic.ofDecimal 0 0 : Float) + Arithmetic.ofDecimal (digitsValue [b]) 0 =
      Arithmetic.ofDecimal (digitsValue [b]) 0) (n : Nat) :
    (sumOf (digit b hb) n).evaluate strtod = .ok (Arithmetic.ofDecimal (digitsValue [b]) 0) := by
  induction n with
  | zero => exact evaluate_digit hd hb
  | succ n ih =>
    have hzero : (Expr.lit zero).evaluate strtod = .ok (Arithmetic.ofDecimal 0 0) :=
      evaluate_digit hd (by decide)
    rw [sumOf, Expr.evaluate, hzero, ih]
    exact congrArg Except.ok hneutral

/-- The sum of zeros is printed as `0`, and with a `1` as `1`. -/
theorem shown_sumOf (hd : ReadsDigits strtod) (n : Nat) :
    (sumOf zero n).shown strtod = .ok (.success, [.value (ascii "0")]) ∧
      (sumOf one n).shown strtod = .ok (.success, [.value (ascii "1")]) := by
  have hzero : (sumOf zero n).evaluate strtod = .ok (Arithmetic.ofDecimal 0 0) :=
    evaluate_sumOf hd (by decide) (by decide +kernel) n
  have hone : (sumOf one n).evaluate strtod = .ok (Arithmetic.ofDecimal 1 0) :=
    evaluate_sumOf hd (by decide) (by decide +kernel) n
  have hprint0 : Arithmetic.printG (Arithmetic.ofDecimal 0 0 : Float) = ascii "0" := by
    decide +kernel
  have hprint1 : Arithmetic.printG (Arithmetic.ofDecimal 1 0 : Float) = ascii "1" := by
    decide +kernel
  constructor
  · rw [Expr.shown, hzero, ← hprint0]
  · rw [Expr.shown, hone, ← hprint1]

theorem clean_of_same (hn : StopsAtNewline strtod) (hd : ReadsDigits strtod) {h : List Line}
    (hc : Leaves strtod h c)
    (hsame : ∀ l : ExpressionLine, l.expr.NoZeroDivisor Float →
      outcome strtod h l.toLine = outcome strtod [] l.toLine)
    (l : ExpressionLine) : Clean c l.expr := by
  constructor
  · by_contra hover
    have hdepth := l.depth_le
    have hbound : c.stack.idx ≤ ARRAYSIZE := c.stack.bounded
    obtain ⟨n, hfull⟩ : ∃ n, c.stack.idx + n = ARRAYSIZE := ⟨ARRAYSIZE - c.stack.idx, by omega⟩
    obtain ⟨said, hsaid⟩ := outcome_dropped hn hd hc (n := n) (by omega) hfull
    obtain ⟨h0, h1⟩ := shown_sumOf hd n
    -- the two lines do the same, but `0` and `1` are what they print first
    have hfirst : ∀ l : ExpressionLine, l.expr.NoZeroDivisor Float →
        outcome strtod h l.toLine = .ok (.success, some said) →
        (l.expr.shown strtod).map (fun r => (r.1, some r.2)) = .ok (.success, some said) :=
      fun l hz hl => by rw [← hl, hsame l hz, outcome_clean hn (leaves_nil strtod) (clean_init l)]
    have hzero : ((sumOf zero n).shown strtod).map _ = _ :=
      hfirst _ (noZeroDivisor_sumOf Float zero n) (hsaid 48 (by decide))
    have hone : ((sumOf one n).shown strtod).map _ = _ :=
      hfirst _ (noZeroDivisor_sumOf Float one n) (hsaid 49 (by decide))
    rw [h0] at hzero
    rw [h1] at hone
    have hsame01 := hzero.trans hone.symm
    simp only [Except.map, Except.ok.injEq, Prod.mk.injEq, Option.some.injEq, true_and,
      List.cons.injEq, Said.value.injEq, and_true] at hsame01
    exact absurd hsame01 (by decide)
  · intro _
    cases htype : c.type with
    | INT => rfl
    | DOUBLE =>
      have hline := hsame remainderLine ⟨trivial, trivial, nofun, fun _ => by decide +kernel⟩
      rw [outcome_double hn hd hc htype,
        outcome_clean hn (leaves_nil strtod) (clean_init _)] at hline
      have hone : (Expr.lit one).evaluate strtod = .ok (Arithmetic.ofDecimal 1 0) :=
        evaluate_digit hd (by decide)
      have hval : remainderLine.expr.evaluate strtod = .ok 0 := by
        show (Expr.bin .rem (.lit one) (.lit one)).evaluate strtod = _
        rw [Expr.evaluate, hone]
        decide +kernel
      rw [Expr.shown, hval] at hline
      cases hline

/-- **After lines that leave the calculator running, the line of an expression does what it does
    first if it is clean; and if all of them without a zero divisor do, all of them are.** -/
theorem lines_independent_iff (hn : StopsAtNewline strtod) (hd : ReadsDigits strtod)
    {h : List Line} (hc : Leaves strtod h c) :
    (∀ l : ExpressionLine, Clean c l.expr →
      outcome strtod h l.toLine = outcome strtod [] l.toLine) ∧
    ((∀ l : ExpressionLine, l.expr.NoZeroDivisor Float →
      outcome strtod h l.toLine = outcome strtod [] l.toLine) ↔
        ∀ l : ExpressionLine, Clean c l.expr) :=
  ⟨fun _ hl => outcome_same hn hc hl, clean_of_same hn hd hc, fun hclean l _ =>
    outcome_same hn hc (hclean l)⟩

theorem readsDigits_strtodDecimal : ReadsDigits (strtodDecimal (D := Float)) := by
  intro b hb
  have hread := strtodDecimal_numeral (D := Float) (digit b hb).numeral (.inl rfl)
  rw [List.append_nil, Literal.unsigned_eq] at hread
  have hfinite : ∀ n < 10, (Arithmetic.trunc (Arithmetic.ofDecimal n 0 : Float)).isNone = false := by
    decide +kernel
  have hlt : digitsValue [b] < 10 := by
    unfold isdigit at hb
    have hle : b ≤ 57 := of_decide_eq_true (Bool.and_eq_true_iff.mp hb).2
    have hnat : b.toNat ≤ 57 := UInt8.le_iff_toNat_le.mp hle
    show 10 * 0 + (b.toNat - 48) < 10
    omega
  exact hread.trans (Prod.ext rfl (hfinite _ hlt))

/-- `1.5 2 %`. -/
def refused : Line := ⟨ascii "1.5 2 %", by decide +kernel, by decide⟩

/-- What `refused` leaves: an empty stack and the wrong type. -/
def afterRefused : Calc Float := ⟨Calc.init.stack, 2, .DOUBLE⟩

theorem leaves_refused : Leaves strtodDecimal [refused] afterRefused :=
  ⟨[[.remainderOfDouble]], by decide +kernel⟩

theorem lines_independent_iff_refused :
    (∀ l : ExpressionLine, Clean afterRefused l.expr →
      outcome (strtodDecimal (D := Float)) [refused] l.toLine =
        outcome (strtodDecimal (D := Float)) [] l.toLine) ∧
    ((∀ l : ExpressionLine, l.expr.NoZeroDivisor Float →
      outcome (strtodDecimal (D := Float)) [refused] l.toLine =
        outcome (strtodDecimal (D := Float)) [] l.toLine) ↔
      ∀ l : ExpressionLine, Clean afterRefused l.expr) :=
  lines_independent_iff stopsAtNewline_strtodDecimal readsDigits_strtodDecimal leaves_refused

/-- After `1.5 2 %` the remainder of `1` and `1` is refused, not printed. -/
theorem remainder_after_refused :
    Leaves strtodDecimal [refused] afterRefused ∧
      outcome (strtodDecimal (D := Float)) [refused] remainderLine.toLine =
        .ok (.success, some [.remainderOfDouble]) ∧
      outcome (strtodDecimal (D := Float)) [] remainderLine.toLine =
        .ok (.success, some [.value (ascii "0")]) ∧
      remainderLine.expr.NoZeroDivisor Float := by
  refine ⟨leaves_refused, outcome_double stopsAtNewline_strtodDecimal readsDigits_strtodDecimal
    leaves_refused rfl, ?_, trivial, trivial, nofun, fun _ => by decide +kernel⟩
  rw [outcome_clean stopsAtNewline_strtodDecimal (leaves_nil strtodDecimal) (clean_init _)]
  decide +kernel

end Doubles

end Calculator
end Labs
