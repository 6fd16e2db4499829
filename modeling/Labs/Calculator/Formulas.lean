import Labs.Calculator.Remainder

/-!
# Where the operands come from

An item of the stack is a number of the input, or what an operator makes of two others, or the zero that
an empty stack answers. So it is the value of a `Formula`, and which formulas stand on the stack is known
from the words of the input (`Formulas.word`): only a divisor that is zero, and the zero at which a reset
stops, have to be looked at, and both are values of formulas. The calculator follows: its items are the
values of the formulas, as long as no remainder is computed that is none (`step_follows`).

`remainder_safe_iff` is about the input then. Every `%` that it comes to stands behind two formulas, and
the program faults exactly if the values of some two of them have no remainder. Which values is a question
to the arithmetic: `1 49 / 49 *` is `1` in the rationals and less in doubles, and a `%` by it traps.

## Why not the stack itself

Whether a remainder traps depends on two items, and an item depends on everything that came before.
To say when the program is safe one could ask for the items at each `%`, and would have said that it
does not trap if it does not trap. A formula says instead which part of the input an item stands
for. It is found by following the words, with no arithmetic but where the program itself branches on
a value: at a `/`, and at a reset, which goes up to the first zero.

So `Formulas.word` is a machine with formulas for numbers, and the two are run side by side.
`Follows` is kept by every word whose remainder exists (`step_follows`); where one does not exist
the program ends (`step_crashes`). Both together give the equivalence for a line, and an induction
on the turns of the loop gives it for the input.

A formula is evaluated in the arithmetic of the program. Nothing is said about which formulas have a
zero value: `1 49 / 49 * 1 -` has one in the rationals, and none in doubles.
-/

namespace Labs
namespace Calculator

open Lib

/-- How an item of the stack came about. -/
inductive Formula
  | nothing
  | number (tok : List UInt8)
  | oper (oper : Op) (left right : Formula)

/-- The formulas on the stack, the last one in front, and the type. -/
structure Formulas where
  items : List Formula
  type : Mode

variable {D : Type} [Arithmetic D] {strtod : List UInt8 → D × Bool} {c c' : Calc D} {g g' : Formulas}
  {tok : List UInt8} {toks : List (List UInt8)} {crash : Crash}

/-- What a formula is worth. -/
def Formula.value (strtod : List UInt8 → D × Bool) : Formula → D
  | nothing => EOS
  | number tok =>
    if isSigned tok then -(strtod (unsignedOf tok)).1 else (strtod (unsignedOf tok)).1
  | oper .ADD left right => left.value strtod + right.value strtod
  | oper .SUB left right => left.value strtod - right.value strtod
  | oper .MUL left right => left.value strtod * right.value strtod
  | oper .DIV left right => left.value strtod / right.value strtod
  | oper _ left right =>
    Arithmetic.ofInt (((Arithmetic.trunc (left.value strtod)).getD 0).tmod
      ((Arithmetic.trunc (right.value strtod)).getD 0))

namespace Formulas

def init : Formulas := ⟨[], .INT⟩

def top (g : Formulas) : Formula := g.items.headD .nothing

def pop (g : Formulas) : Formulas := { g with items := g.items.tail }

/-- A full stack drops the item. -/
def push (g : Formulas) (f : Formula) : Formulas :=
  if g.items.length < ARRAYSIZE then { g with items := f :: g.items } else g

/-- A reset goes up to the first formula that is worth zero. -/
def reset (strtod : List UInt8 → D × Bool) (g : Formulas) : Formulas :=
  { g with items := (g.items.dropWhile fun f => !Arithmetic.isZero (f.value strtod)).tail }

/-- A word that is an operator. -/
def operation (strtod : List UInt8 → D × Bool) (g : Formulas) (oper : Op) : Flow × Formulas :=
  if oper = .DIV ∧ Arithmetic.isZero (g.top.value strtod) then (.tryAgain, g.pop.reset strtod)
  else if oper = .REM ∧ g.type = .DOUBLE then (.tryAgain, g.pop.reset strtod)
  else (.next, g.pop.pop.push (.oper oper g.pop.top g.top))

/-- A word of a line. -/
def word (strtod : List UInt8 → D × Bool) (g : Formulas) (tok : List UInt8) : Flow × Formulas :=
  if startsWithDigit (unsignedOf tok) then
    if (strtod (unsignedOf tok)).2 then (.disgrace, ⟨g.items, .INT⟩)
    else (.next, push ⟨g.items, (scanNumber 0 g.type (unsignedOf tok)).1⟩ (.number tok))
  else
    match operator tok with
    | some oper => g.operation strtod oper
    | none => (.tryAgain, reset strtod ⟨g.items, .INT⟩)

/-- The words of a line. There is nothing behind a number that is out of range. -/
def line (strtod : List UInt8 → D × Bool) : Formulas → List (List UInt8) → Option Formulas
  | g, [] => some ⟨g.items.tail, .INT⟩
  | g, tok :: toks =>
    match g.word strtod tok with
    | (.next, g) => g.line strtod toks
    | (.tryAgain, g) => some g
    | (.disgrace, _) => none

/-- If the word is a `%` in type `INT`, the values of the two formulas in front of it have a
    remainder. -/
def Defined (strtod : List UInt8 → D × Bool) (g : Formulas) (tok : List UInt8) : Prop :=
  operator tok = some .REM → g.type = .INT →
    HasRemainder (g.pop.top.value strtod) (g.top.value strtod)

/-- So it is for the words that the line comes to. -/
def LineDefined (strtod : List UInt8 → D × Bool) : Formulas → List (List UInt8) → Prop
  | _, [] => True
  | g, tok :: toks => g.Defined strtod tok ∧
      ∀ g', g.word strtod tok = (.next, g') → g'.LineDefined strtod toks

/-- And for the lines that the input comes to. -/
def AllDefined (strtod : List UInt8 → D × Bool) : Formulas → List (List (List UInt8)) → Prop
  | _, [] => True
  | g, toks :: lines => g.LineDefined strtod toks ∧
      ∀ g', g.line strtod toks = some g' → g'.AllDefined strtod lines

end Formulas

/-- The words of the lines that `getLine` makes of the input. -/
def lineWords : Nat → List UInt8 → List UInt8 → List (List (List UInt8))
  | 0, _, _ => []
  | fuel + 1, buf, inp =>
    match getLine buf inp with
    | .ok (true, buf, inp) => (tokens SPACE (cstr buf)).1 :: lineWords fuel buf inp
    | _ => []

def wordsOf (inp : List UInt8) : List (List (List UInt8)) :=
  lineWords (inp.length + 1) (List.replicate BUFSIZE NUL) inp

/-! ## 1. One word -/

/-- The items of the calculator are the values of the formulas. -/
structure Follows (strtod : List UInt8 → D × Bool) (c : Calc D) (g : Formulas) : Prop where
  items : c.stack.items = g.items.map (Formula.value strtod)
  type : c.type = g.type

theorem headD_values (fs : List Formula) : (fs.map (Formula.value strtod)).headD EOS =
    (fs.headD .nothing).value strtod := by
  cases fs with
  | nil => rfl
  | cons f fs => rfl

theorem drain_values (fs : List Formula) : drain (fs.map (Formula.value strtod)) =
    ((fs.dropWhile fun f => !Arithmetic.isZero (f.value strtod)).tail).map (Formula.value strtod) := by
  induction fs with
  | nil => rfl
  | cons f fs ih =>
    rw [List.map_cons, drain, List.dropWhile_cons]
    cases Arithmetic.isZero (f.value strtod) with
    | true => rfl
    | false => exact ih

theorem Follows.top (h : Follows strtod c g) : c.stack.items.headD EOS = g.top.value strtod := by
  rw [h.items, headD_values]
  rfl

theorem Follows.next (h : Follows strtod c g) :
    c.stack.items.tail.headD EOS = g.pop.top.value strtod := by
  rw [h.items, ← List.map_tail, headD_values]
  rfl

theorem items_pop (s : Stack D) : (pop s).2.items = s.items.tail :=
  congrArg Prod.snd (popItems_eq s.items)

theorem Follows.pop (h : Follows strtod c g) :
    Follows strtod { c with stack := (Calculator.pop c.stack).2 } g.pop :=
  ⟨by rw [items_pop, h.items, ← List.map_tail]; rfl, h.type⟩

theorem Follows.reset (h : Follows strtod c g) (said : List Said) :
    Follows strtod (Calculator.reset c said).2.1 (g.reset strtod) :=
  ⟨by show drain c.stack.items = _; rw [h.items, drain_values]; rfl, h.type⟩

theorem Follows.push (h : Follows strtod c g) {x : D} {f : Formula} (hx : x = f.value strtod)
    (val : D) : Follows strtod ⟨Calculator.push c.stack x, val, c.type⟩ (g.push f) := by
  have hlen : c.stack.idx = g.items.length := by rw [Stack.idx, h.items, List.length_map]
  unfold Formulas.push
  split
  · rename_i hroom
    refine ⟨?_, h.type⟩
    rw [push_items (hlen ▸ hroom), h.items, hx]
    rfl
  · rename_i hfull
    refine ⟨?_, h.type⟩
    rw [push_full (hlen ▸ Nat.le_of_not_lt hfull), h.items]

/-- An operator whose operands are defined is followed. -/
theorem execute_follows (h : Follows strtod c g) (op : BinOp)
    (hdef : op = .rem → g.type = .INT → HasRemainder (g.pop.top.value strtod) (g.top.value strtod)) :
    ∃ c' said, execute op.oper c = .ok ((g.operation strtod op.oper).1, c', said) ∧
      Follows strtod c' (g.operation strtod op.oper).2 := by
  have htop : (pop c.stack).1 = g.top.value strtod := by
    rw [← h.top]
    exact congrArg Prod.fst (popItems_eq c.stack.items)
  have hnext : (pop (pop c.stack).2).1 = g.pop.top.value strtod := by
    rw [← h.pop.top]
    exact congrArg Prod.fst (popItems_eq _)
  have hgoes : ∀ {x : D}, x = (Formula.oper op.oper g.pop.top g.top).value strtod →
      Follows strtod (c.result (pop (pop c.stack).2).2 x).2.1
        (g.pop.pop.push (.oper op.oper g.pop.top g.top)) := by
    intro x hx
    exact h.pop.pop.push hx x
  cases op with
  | add =>
    refine ⟨_, _, rfl, hgoes ?_⟩
    show (pop c.stack).1 + (pop (pop c.stack).2).1 = _
    rw [htop, hnext, Arithmetic.add_comm]
    rfl
  | mul =>
    refine ⟨_, _, rfl, hgoes ?_⟩
    show (pop c.stack).1 * (pop (pop c.stack).2).1 = _
    rw [htop, hnext, Arithmetic.mul_comm]
    rfl
  | sub =>
    refine ⟨_, _, rfl, hgoes ?_⟩
    show (pop (pop c.stack).2).1 - (pop c.stack).1 = _
    rw [htop, hnext]
    rfl
  | div =>
    show ∃ c' said, ordered .DIV c = .ok ((g.operation strtod .DIV).1, c', said) ∧
      Follows strtod c' (g.operation strtod .DIV).2
    unfold ordered Formulas.operation
    simp only [htop, true_and, reduceCtorEq, false_and, if_false]
    cases Arithmetic.isZero (g.top.value strtod) with
    | true => exact ⟨_, _, rfl, h.pop.reset [.divisionByZero]⟩
    | false =>
      refine ⟨_, _, rfl, hgoes ?_⟩
      rw [hnext]
      rfl
  | rem =>
    show ∃ c' said, ordered .REM c = .ok ((g.operation strtod .REM).1, c', said) ∧
      Follows strtod c' (g.operation strtod .REM).2
    unfold ordered Formulas.operation
    simp only [htop, hnext, h.type, true_and, reduceCtorEq, false_and, if_false]
    cases htype : g.type with
    | DOUBLE => exact ⟨_, _, rfl, (h.pop.reset [.remainderOfDouble]).items, htype.symm⟩
    | INT =>
      obtain ⟨m, n, hm, hmr, hn, hnr, hzero, hquot⟩ := hdef rfl htype
      have hrem : remOf (g.pop.top.value strtod) (g.top.value strtod) =
          .ok (Arithmetic.ofInt (m.tmod n)) :=
        remOf_ok_iff.mpr ⟨m, n, hm, hmr, hn, hnr, hzero, (tdiv_inRange_iff hmr).mpr hquot, rfl⟩
      refine ⟨_, _, by rw [hrem]; rfl, hgoes ?_⟩
      show _ = Arithmetic.ofInt (((Arithmetic.trunc (g.pop.top.value strtod)).getD 0).tmod
        ((Arithmetic.trunc (g.top.value strtod)).getD 0))
      rw [hm, hn]
      rfl

/-- **The calculator follows the formulas** through a word that is defined. -/
theorem step_follows (h : Follows strtod c g) (hdef : g.Defined strtod tok) :
    ∃ c' said, step strtod c tok = .ok ((g.word strtod tok).1, c', said) ∧
      Follows strtod c' (g.word strtod tok).2 := by
  unfold Formulas.word
  cases hstart : startsWithDigit (unsignedOf tok) with
  | true =>
    have hparse := @parseTok_number _ _ strtod tok c.val c.type hstart
    unfold parseNumber at hparse
    rw [if_pos rfl, step, hparse]
    cases herrno : (strtod (unsignedOf tok)).2 with
    | true =>
      simp only [herrno, if_true]
      exact ⟨_, _, rfl, h.items, rfl⟩
    | false =>
      simp only [herrno, Bool.false_eq_true, if_false]
      have htype : Follows strtod ⟨c.stack, c.val, (scanNumber 0 g.type (unsignedOf tok)).1⟩
          ⟨g.items, (scanNumber 0 g.type (unsignedOf tok)).1⟩ := ⟨h.items, rfl⟩
      rw [h.type]
      exact ⟨_, _, rfl, htype.push (f := .number tok) rfl _⟩
  | false =>
    have hparse := @parseTok_other _ _ strtod tok c.val c.type hstart
    rw [if_neg Bool.false_ne_true, step, hparse]
    cases hoper : operator tok with
    | none =>
      have htype : Follows strtod ⟨c.stack, c.val, .INT⟩ ⟨g.items, .INT⟩ := ⟨h.items, rfl⟩
      exact ⟨_, _, rfl, htype.reset []⟩
    | some oper =>
      obtain ⟨op, -, -, -, rfl⟩ := of_operator hoper
      have hrem : op = .rem → g.type = .INT →
          HasRemainder (g.pop.top.value strtod) (g.top.value strtod) :=
        fun hop => hdef (by rw [hoper, hop]; rfl)
      obtain ⟨c', said, hexec, hfollows⟩ := execute_follows h op hrem
      refine ⟨c', [] ++ said, ?_, hfollows⟩
      show (execute op.oper c >>= fun r => .ok (r.1, r.2.1, [] ++ r.2.2)) = _
      rw [hexec]
      rfl

/-- A word that is not defined crashes it. -/
theorem step_crashes (h : Follows strtod c g) (hdef : ¬ g.Defined strtod tok) :
    ∃ crash, step strtod c tok = .error crash := by
  unfold Formulas.Defined at hdef
  push Not at hdef
  obtain ⟨hoper, htype, hrem⟩ := hdef
  refine (step_crash_iff strtod c tok).mpr ⟨hoper, h.type.trans htype, ?_⟩
  rw [h.top, h.next]
  exact hrem

/-! ## 2. The lines -/

/-- Where a line leaves the calculator, and where it leaves the formulas. -/
def LineFollows (strtod : List UInt8 → D × Bool) : Option (Calc D) → Option Formulas → Prop
  | some c, some g => Follows strtod c g
  | none, none => True
  | _, _ => False

theorem LineFollows.exists_formulas {next : Option Formulas}
    (h : LineFollows strtod (some c) next) : ∃ g, next = some g ∧ Follows strtod c g := by
  cases next with
  | none => cases h
  | some g => exact ⟨g, rfl, h⟩

theorem LineFollows.eq_none {next : Option Formulas}
    (h : LineFollows strtod (none : Option (Calc D)) next) : next = none := by
  cases next with
  | none => rfl
  | some g => cases h

theorem finishLine_follows (h : Follows strtod c g) :
    Follows strtod (finishLine c).1 ⟨g.items.tail, .INT⟩ := by
  unfold finishLine
  split
  · refine ⟨?_, rfl⟩
    show (pop c.stack).2.items = g.items.tail.map _
    rw [items_pop, h.items, ← List.map_tail]
  · rename_i hempty
    have hnil : c.stack.items = [] := List.length_eq_zero_iff.mp (Nat.eq_zero_of_not_pos hempty)
    have hnone : g.items = [] := List.map_eq_nil_iff.mp (h.items.symm.trans hnil)
    refine ⟨?_, rfl⟩
    show c.stack.items = g.items.tail.map _
    rw [hnil, hnone]
    rfl

/-- The calculator follows through a line whose words are defined, and crashes in any other. -/
theorem tokenLoop_follows (h : Follows strtod c g) (toks : List (List UInt8)) :
    (g.LineDefined strtod toks → ∃ r, tokenLoop strtod c toks = .ok r ∧
      LineFollows strtod (lineEnd r).1 (g.line strtod toks)) ∧
    (¬ g.LineDefined strtod toks →
      ∃ crash, tokenLoop strtod c toks = .error crash ∧ crash ≠ .outOfBounds) := by
  induction toks generalizing c g with
  | nil => exact ⟨fun _ => ⟨_, rfl, finishLine_follows h⟩, fun hno => absurd trivial hno⟩
  | cons tok toks ih =>
    by_cases hdef : g.Defined strtod tok
    · obtain ⟨c', said, hstep, hfollows⟩ := step_follows h hdef
      rcases hword : g.word strtod tok with ⟨flow, g'⟩
      rw [hword] at hstep hfollows
      cases flow with
      | next =>
        obtain ⟨hgoes, hcrash⟩ := ih hfollows
        have hiff : g.LineDefined strtod (tok :: toks) ↔ g'.LineDefined strtod toks := by
          refine ⟨fun hline => hline.2 g' hword, fun hline => ⟨hdef, fun g'' hg'' => ?_⟩⟩
          cases hword.symm.trans hg''
          exact hline
        have hline : g.line strtod (tok :: toks) = g'.line strtod toks := by
          rw [Formulas.line, hword]
        rw [hiff, tokenLoop_cons hstep, hline]
        constructor
        · intro hdefined
          obtain ⟨r, hrun, hr⟩ := hgoes hdefined
          refine ⟨_, by rw [hrun]; rfl, ?_⟩
          obtain ⟨flow, last, later⟩ := r
          cases flow <;> exact hr
        · intro hno
          obtain ⟨crash, hrun, hne⟩ := hcrash hno
          exact ⟨crash, by rw [hrun]; rfl, hne⟩
      | tryAgain =>
        have hline : g.line strtod (tok :: toks) = some g' := by rw [Formulas.line, hword]
        rw [tokenLoop_stop hstep (fun hnext => by cases hnext), hline]
        exact ⟨fun _ => ⟨_, rfl, hfollows⟩, fun hno => absurd ⟨hdef, fun g'' hg'' => by
          cases hword.symm.trans hg''⟩ hno⟩
      | disgrace =>
        have hline : g.line strtod (tok :: toks) = none := by rw [Formulas.line, hword]
        rw [tokenLoop_stop hstep (fun hnext => by cases hnext), hline]
        exact ⟨fun _ => ⟨_, rfl, trivial⟩, fun hno => absurd ⟨hdef, fun g'' hg'' => by
          cases hword.symm.trans hg''⟩ hno⟩
    · obtain ⟨crash, hstep⟩ := step_crashes h hdef
      exact ⟨fun hline => absurd hline.1 hdef,
        fun _ => ⟨crash, tokenLoop_crash hstep, step_crash hstep⟩⟩

theorem line_follows (h : Follows strtod c g) (buf : List UInt8) :
    (g.LineDefined strtod (tokens SPACE (cstr buf)).1 → ∃ r, line strtod c buf = .ok r ∧
      LineFollows strtod r.1 (g.line strtod (tokens SPACE (cstr buf)).1)) ∧
    (¬ g.LineDefined strtod (tokens SPACE (cstr buf)).1 →
      ∃ crash, line strtod c buf = .error crash ∧ crash ≠ .outOfBounds) := by
  obtain ⟨hgoes, hcrashes⟩ := tokenLoop_follows h (tokens SPACE (cstr buf)).1
  rw [line_eq]
  constructor
  · intro hdef
    obtain ⟨r, hrun, hr⟩ := hgoes hdef
    rw [hrun]
    exact ⟨lineEnd r, rfl, hr⟩
  · intro hno
    obtain ⟨crash, hrun, hne⟩ := hcrashes hno
    rw [hrun]
    exact ⟨crash, rfl, hne⟩

/-- What is said before it is no crash. -/
theorem crash_bind_iff {P : Crash → Prop} {x : Except Crash (Exit × List (List Said))}
    (said : List Said) :
    (∀ crash, (x >>= fun r => (.ok (r.1, said :: r.2) : Except Crash _)) = .error crash → P crash) ↔
      ∀ crash, x = .error crash → P crash := by
  cases x with
  | ok r => exact iff_of_true (fun crash h => by cases h) fun crash h => by cases h
  | error crash => exact Iff.rfl

theorem calculatorLoop_crash_iff (h : Follows strtod c g) (fuel : Nat) (buf inp : List UInt8) :
    (∀ crash, calculatorLoop strtod fuel c buf inp = .error crash → crash = .outOfBounds) ↔
      g.AllDefined strtod (lineWords fuel buf inp) := by
  induction fuel generalizing c g buf inp with
  | zero => exact iff_of_true (fun crash h => by cases h) trivial
  | succ fuel ih =>
    rw [calculatorLoop, lineWords]
    cases hget : getLine buf inp with
    | error crash =>
      refine iff_of_true (fun crash' h => ?_) trivial
      cases h
      exact getLine_crash hget
    | ok r =>
      obtain ⟨more, buf', rest⟩ := r
      cases more with
      | false => exact iff_of_true (fun crash h => by cases h) trivial
      | true =>
        show (∀ crash, (line strtod c buf' >>= _) = .error crash → _) ↔
          g.LineDefined strtod (tokens SPACE (cstr buf')).1 ∧ _
        obtain ⟨hgoes, hcrashes⟩ := line_follows h buf'
        by_cases hdef : g.LineDefined strtod (tokens SPACE (cstr buf')).1
        · obtain ⟨⟨next, said⟩, hline, hfollows⟩ := hgoes hdef
          rw [hline, and_iff_right hdef]
          cases next with
          | none =>
            rw [hfollows.eq_none]
            exact iff_of_true (fun crash h => by cases h) fun g' hg' => by cases hg'
          | some c' =>
            obtain ⟨g', hwords, hg'⟩ := hfollows.exists_formulas
            rw [hwords]
            refine (crash_bind_iff said).trans ((ih hg' buf' rest).trans ⟨?_, fun h => h g' rfl⟩)
            exact fun h g'' hg'' => Option.some.inj hg'' ▸ h
        · obtain ⟨crash, hline, hne⟩ := hcrashes hdef
          rw [hline]
          exact iff_of_false (fun h => hne (h crash rfl)) fun h => hdef h.1

end Calculator
end Labs
