import Labs.Calculator.Numerals

/-!
# Evaluating an expression

An expression over integers is a tree, and its postfix form the tokens that the calculator reads.
While the tokens of one tree are processed the stack below is not touched: what the tree leaves
there is one item more (`tokenLoop_rpn`). The induction is on the tree; it needs room for
`depth` items more, and an `INT` where there is a `%`.

`evaluate` is the tree as the calculator computes it, in the numbers it has. It may come to a `Stop`: a
literal is out of range, a divisor is zero, or a remainder has no result. `(int)` and `%` are the only
operations that crash, and `ops.c` says that overflow is not checked: `INT_MIN % -1` is that case.
Without a `Stop` it is the `value` of the tree.

## Two readings of a tree

`value` is what a reader of the expression means, `evaluate` is what the calculator computes with
the `strtod` it has. They are related in two steps. That the loop over the tokens comes to where
`evaluate` does is an induction on the tree which never looks at a number (`tokenLoop_rpn`); it
holds in every `Arithmetic`. When `evaluate` has the `value` is a question about numbers, and its
answer is four conditions on the tree (`LiteralsInRange`, `NoZeroDivisor`, `RemInRange`,
`QuotientsInRange`). Read for `Float` they are about rounded values: a divisor that is zero only on
paper is none.

A `Stop` has the three ways in which a line can end without its value. They are kept apart since the
program goes on differently after each: not at all after a crash, with the next line after a line
that is dropped, and with the end of the program after `leave_with_disgrace`.

Room on the stack is a matter of the shape of the tree (`depth`), and a line that fits into the
buffer never needs more than an empty stack has.
-/

namespace Labs
namespace Calculator

open Lib

/-- The digits of a number, and its sign. -/
structure Literal where
  negative : Bool
  digits : List UInt8
  digits_ne : digits ≠ []
  digits_isdigit : ∀ b ∈ digits, isdigit b

theorem no_fraction : (none : Option (List UInt8)) ≠ some [] := (Option.some_ne_none _).symm

theorem no_fraction_isdigit : ∀ ds ∈ (none : Option (List UInt8)), ∀ b ∈ ds, isdigit b := by
  rintro ds ⟨⟩

def Literal.numeral (l : Literal) : Numeral :=
  ⟨l.negative, l.digits, l.digits_ne, l.digits_isdigit, none, no_fraction, no_fraction_isdigit⟩

/-- A number of one digit. -/
def digit (b : UInt8) (hb : isdigit b) : Literal :=
  ⟨false, [b], List.cons_ne_nil _ _, List.forall_mem_singleton.mpr hb⟩

inductive BinOp
  | add
  | sub
  | mul
  | div
  | rem
deriving DecidableEq

inductive Expr
  | lit (l : Literal)
  | bin (op : BinOp) (left right : Expr)

/-- How an evaluation ends without a value: the calculator crashes, drops the line, or gives up. -/
inductive Stop
  | crash (crash : Crash)
  | reset (said : List Said)
  | disgrace
deriving DecidableEq

variable {D : Type}

/-- Where a run of the loop comes to with an evaluation: on with its value, or to where the line
    ends. -/
def Comes (run : Except Crash (Flow × Calc D × List Said))
    (goesOn : D → Except Crash (Flow × Calc D × List Said)) : Except Stop D → Prop
  | .ok x => run = goesOn x
  | .error (.crash crash) => run = .error crash
  | .error (.reset said) => ∃ c', run = .ok (.tryAgain, c', said)
  | .error .disgrace => ∃ c', run = .ok (.disgrace, c', [])

theorem Comes.bind {run : Except Crash (Flow × Calc D × List Said)}
    {goesOn next : D → Except Crash (Flow × Calc D × List Said)} {r : Except Stop D}
    {f : D → Except Stop D} (h : Comes run goesOn r) (hf : ∀ x, Comes (goesOn x) next (f x)) :
    Comes run next (r >>= f) := by
  cases r with
  | ok x =>
    have hrun : run = goesOn x := h
    rw [hrun]
    exact hf x
  | error stop =>
    cases stop with
    | crash crash => exact h
    | reset said => exact h
    | disgrace => exact h

variable [Arithmetic D]

/-- What stands in front of the point is an `int`. -/
def FitsInt (x : D) : Prop := ∃ n, Arithmetic.trunc x = some n ∧ InRange32 n

namespace Expr

/-- The value of a tree: the four operations, and the remainder of the division of integers that
    rounds towards zero. -/
def value : Expr → D
  | lit l => l.numeral.value
  | bin .add l r => l.value + r.value
  | bin .sub l r => l.value - r.value
  | bin .mul l r => l.value * r.value
  | bin .div l r => l.value / r.value
  | bin .rem l r => Arithmetic.ofInt (((Arithmetic.trunc (l.value : D)).getD 0).tmod
      ((Arithmetic.trunc (r.value : D)).getD 0))

/-- The items that the evaluation has on the stack at once. -/
def depth : Expr → Nat
  | lit _ => 1
  | bin _ l r => max l.depth (r.depth + 1)

def hasRem : Expr → Bool
  | lit _ => false
  | bin op l r => op == .rem || l.hasRem || r.hasRem

/-- No divisor is zero. -/
def NoZeroDivisor (D : Type) [Arithmetic D] : Expr → Prop
  | lit _ => True
  | bin op l r => l.NoZeroDivisor D ∧ r.NoZeroDivisor D ∧
      (op = .div → Arithmetic.isZero (r.value : D) = false) ∧
      (op = .rem → Arithmetic.trunc (r.value : D) ≠ some 0)

/-- The operands of every remainder are in the range of `int`. -/
def RemInRange (D : Type) [Arithmetic D] : Expr → Prop
  | lit _ => True
  | bin op l r => l.RemInRange D ∧ r.RemInRange D ∧
      (op = .rem → FitsInt (l.value : D) ∧ FitsInt (r.value : D))

/-- No remainder is that of `INT_MIN` and `-1`, whose quotient is not an `int`. -/
def QuotientsInRange (D : Type) [Arithmetic D] : Expr → Prop
  | lit _ => True
  | bin op l r => l.QuotientsInRange D ∧ r.QuotientsInRange D ∧
      (op = .rem → ¬ (Arithmetic.trunc (l.value : D) = some INT_MIN ∧
        Arithmetic.trunc (r.value : D) = some (-1)))

/-- No literal is out of range. -/
def LiteralsInRange (strtod : List UInt8 → D × Bool) : Expr → Prop
  | lit l => (strtod l.digits).2 = false
  | bin _ l r => l.LiteralsInRange strtod ∧ r.LiteralsInRange strtod

end Expr

/-- What becomes of two operands. -/
def BinOp.apply (op : BinOp) (a b : D) : Except Stop D :=
  match op with
  | .add => .ok (a + b)
  | .sub => .ok (a - b)
  | .mul => .ok (a * b)
  | .div => if Arithmetic.isZero b then .error (.reset [.divisionByZero]) else .ok (a / b)
  | .rem => (remOf a b).mapError .crash

/-- The tree as the calculator computes it. -/
def Expr.evaluate (strtod : List UInt8 → D × Bool) : Expr → Except Stop D
  | lit l =>
    let (val, errno) := strtod l.digits
    if errno then .error .disgrace else .ok (if l.negative then -val else val)
  | bin op l r => do
    let a ← l.evaluate strtod
    let b ← r.evaluate strtod
    op.apply a b

/-! ## 1. The tokens -/

inductive Token
  | lit (l : Literal)
  | oper (op : BinOp)

def BinOp.char : BinOp → UInt8
  | .add => 43
  | .sub => MINUS
  | .mul => 42
  | .div => 47
  | .rem => 37

def Token.text : Token → List UInt8
  | .lit l => (if l.negative then [MINUS] else []) ++ l.digits
  | .oper op => [op.char]

def Expr.rpn : Expr → List Token
  | .lit l => [.lit l]
  | .bin op l r => l.rpn ++ r.rpn ++ [.oper op]

def BinOp.oper : BinOp → Op
  | .add => .ADD
  | .sub => .SUB
  | .mul => .MUL
  | .div => .DIV
  | .rem => .REM

variable {strtod : List UInt8 → D × Bool} {e : List UInt8} {val : D} {type : Mode}

theorem Literal.unsigned_eq (l : Literal) : l.numeral.unsigned = l.digits := List.append_nil _

theorem Literal.text_eq (l : Literal) : l.numeral.text = (Token.lit l).text :=
  congrArg ((if l.negative then [MINUS] else []) ++ ·) l.unsigned_eq

/-- An operator is one, and leaves the value and the type. -/
theorem parseTok_oper (op : BinOp) (he : LineEnd e) :
    parseTok strtod ((Token.oper op).text ++ e) val type = ⟨op.oper, val, type, []⟩ := by
  rcases he with rfl | rfl
  · cases op <;> rfl
  · cases op <;> rfl

/-! ## 2. One token -/

variable {s : Stack D} {c : Calc D} {a b x : D}

theorem pop_push (h : s.idx < ARRAYSIZE) : pop (push s x) = (x, s) := by
  apply Prod.ext
  · show (popItems (push s x).items).1 = x
    rw [push_items h]
    rfl
  · apply Stack.ext
    show (popItems (push s x).items).2 = s.items
    rw [push_items h]
    rfl

/-- What the value of a tree leaves behind it. -/
def Calc.after (c : Calc D) (x : D) : Calc D := ⟨push c.stack x, x, c.type⟩

theorem tokenLoop_next {c' : Calc D} {tok : List UInt8} {toks : List (List UInt8)}
    (h : step strtod c tok = .ok (.next, c', [])) :
    tokenLoop strtod c (tok :: toks) = tokenLoop strtod c' toks := by
  rw [tokenLoop, h]
  show (tokenLoop strtod c' toks >>= fun r => pure (r.1, r.2.1, [] ++ r.2.2)) = _
  cases tokenLoop strtod c' toks with
  | error crash => rfl
  | ok r => rfl

theorem tokenLoop_crash {crash : Crash} {tok : List UInt8} {toks : List (List UInt8)}
    (h : step strtod c tok = .error crash) :
    tokenLoop strtod c (tok :: toks) = .error crash := by
  rw [tokenLoop, h]
  rfl

theorem tokenLoop_stop {flow : Flow} {c' : Calc D} {said : List Said} {tok : List UInt8}
    {toks : List (List UInt8)} (h : step strtod c tok = .ok (flow, c', said)) (hstop : flow ≠ .next) :
    tokenLoop strtod c (tok :: toks) = .ok (flow, c', said) := by
  rw [tokenLoop, h]
  cases flow with
  | next => exact absurd rfl hstop
  | tryAgain => rfl
  | disgrace => rfl

theorem tokenLoop_lit (hn : StopsAtNewline strtod) (l : Literal) (he : LineEnd e)
    (more : List (List UInt8)) :
    Comes (tokenLoop strtod c (((Token.lit l).text ++ e) :: more))
      (fun x => tokenLoop strtod (c.after x) more) ((Expr.lit l).evaluate strtod) := by
  have hread : strtod (l.numeral.unsigned ++ e) = strtod l.digits := by
    rcases he with rfl | rfl
    · rw [List.append_nil, l.unsigned_eq]
    · rw [hn l.numeral, l.unsigned_eq]
  have hstep : step strtod c (l.numeral.text ++ e) = _ := step_num l.numeral he
  rw [hread, l.text_eq] at hstep
  rw [Expr.evaluate]
  simp only
  cases herrno : (strtod l.digits).2 with
  | true =>
    rw [herrno] at hstep
    exact ⟨_, tokenLoop_stop hstep (by decide)⟩
  | false =>
    rw [herrno] at hstep
    exact tokenLoop_next hstep

/-- An operator takes its two operands in their order. -/
theorem tokenLoop_oper (op : BinOp) (he : LineEnd e) (hroom : s.idx + 2 ≤ ARRAYSIZE)
    (hrem : op = .rem → type = .INT) (more : List (List UInt8)) :
    Comes (tokenLoop strtod ⟨push (push s a) b, val, type⟩ (((Token.oper op).text ++ e) :: more))
      (fun x => tokenLoop strtod ⟨push s x, x, type⟩ more) (op.apply a b) := by
  have hs : s.idx < ARRAYSIZE := by omega
  have hpop : pop (push (push s a) b) = (b, push s a) := by
    apply pop_push
    rw [push_idx hs]
    omega
  have hpop' : pop (push s a) = (a, s) := pop_push hs
  have hstep : step strtod ⟨push (push s a) b, val, type⟩ ((Token.oper op).text ++ e) =
      execute op.oper ⟨push (push s a) b, val, type⟩ >>= fun r => .ok (r.1, r.2.1, [] ++ r.2.2) := by
    rw [step, parseTok_oper op he]
    rfl
  cases op with
  | add =>
    refine tokenLoop_next (hstep.trans ?_)
    simp only [BinOp.oper, execute, commuted, hpop, hpop', if_true, Arithmetic.add_comm b a]
    rfl
  | sub =>
    refine tokenLoop_next (hstep.trans ?_)
    simp only [BinOp.oper, execute, ordered, hpop, hpop', reduceCtorEq, false_and, if_false]
    rfl
  | mul =>
    refine tokenLoop_next (hstep.trans ?_)
    simp only [BinOp.oper, execute, commuted, hpop, hpop', reduceCtorEq, if_false,
      Arithmetic.mul_comm b a]
    rfl
  | div =>
    simp only [BinOp.oper, execute, ordered, hpop, hpop', true_and, reduceCtorEq, false_and,
      if_false] at hstep
    rw [BinOp.apply]
    cases hzero : Arithmetic.isZero b with
    | true =>
      rw [hzero, if_pos rfl] at hstep
      exact ⟨_, tokenLoop_stop hstep (by decide)⟩
    | false =>
      rw [hzero, if_neg Bool.false_ne_true] at hstep
      exact tokenLoop_next hstep
  | rem =>
    simp only [BinOp.oper, execute, ordered, hpop, hpop', hrem rfl, reduceCtorEq, and_false,
      false_and, if_false] at hstep
    rw [BinOp.apply, hrem rfl]
    cases hr : remOf a b with
    | error crash =>
      rw [hr] at hstep
      exact tokenLoop_crash hstep
    | ok x =>
      rw [hr] at hstep
      exact tokenLoop_next hstep

/-! ## 3. One tree -/

/-- The texts of tokens, any of which may be the last of its line. -/
def Spells (toks : List Token) (texts : List (List UInt8)) : Prop :=
  List.Forall₂ (fun t text => ∃ e, LineEnd e ∧ text = t.text ++ e) toks texts

theorem Spells.split {xs ys : List Token} {texts : List (List UInt8)}
    (h : Spells (xs ++ ys) texts) :
    ∃ us vs, texts = us ++ vs ∧ Spells xs us ∧ Spells ys vs := by
  induction xs generalizing texts with
  | nil => exact ⟨[], texts, rfl, .nil, h⟩
  | cons x xs ih =>
    cases h with
    | cons hx h =>
      obtain ⟨us, vs, rfl, hus, hvs⟩ := ih h
      exact ⟨_ :: us, vs, rfl, .cons hx hus, hvs⟩

theorem Expr.depth_pos (t : Expr) : 0 < t.depth := by
  cases t with
  | lit l => exact Nat.one_pos
  | bin op l r => exact Nat.lt_of_lt_of_le (Nat.succ_pos _) (Nat.le_max_right _ _)

/-- **The tokens of a tree leave its value on the stack, and nothing else.** -/
theorem tokenLoop_rpn (hn : StopsAtNewline strtod) {t : Expr}
    (hroom : c.stack.idx + t.depth ≤ ARRAYSIZE) (hrem : t.hasRem → c.type = .INT)
    {texts : List (List UInt8)} (more : List (List UInt8)) (ht : Spells t.rpn texts) :
    Comes (tokenLoop strtod c (texts ++ more)) (fun x => tokenLoop strtod (c.after x) more)
      (t.evaluate strtod) := by
  induction t generalizing c texts more with
  | lit l =>
    cases ht with
    | cons hl hnil =>
      cases hnil
      obtain ⟨e, he, rfl⟩ := hl
      exact tokenLoop_lit hn l he more
  | bin op l r ihl ihr =>
    rw [Expr.depth] at hroom
    simp only [Expr.hasRem, Bool.or_eq_true, beq_iff_eq] at hrem
    obtain ⟨lr, opText, rfl, hlr, hop⟩ := ht.split
    obtain ⟨us, vs, rfl, hus, hvs⟩ := hlr.split
    cases hop with
    | cons hop hnil =>
      cases hnil
      obtain ⟨e, he, rfl⟩ := hop
      have hdepth := r.depth_pos
      rw [List.append_assoc, List.append_assoc]
      -- the left operand, then the right one above it, then the operator
      refine (ihl (by omega) (fun h => hrem (.inl (.inr h))) _ hus).bind fun a => ?_
      have hpush : (c.after a).stack.idx = c.stack.idx + 1 := push_idx (by omega)
      refine (ihr (c := c.after a) (by omega) (fun h => hrem (.inr h)) _ hvs).bind fun b => ?_
      exact tokenLoop_oper op he (by omega) (fun h => hrem (.inl (.inl h))) more

/-! ## 4. The value of a tree -/

theorem toInt_of_fits {n : Int} (hx : Arithmetic.trunc x = some n) (hn : InRange32 n) :
    toInt x = .ok n := by
  rw [toInt, hx]
  exact if_pos hn

theorem of_toInt {n : Int} (h : toInt x = .ok n) :
    Arithmetic.trunc x = some n ∧ InRange32 n := by
  unfold toInt at h
  split at h
  · rename_i hx
    split at h
    · rename_i hn
      cases h
      exact ⟨hx, hn⟩
    · cases h
  · cases h

/-- The operands of a remainder that is computed, and the remainder. -/
theorem remOf_ok_iff : remOf a b = .ok x ↔ ∃ m n, Arithmetic.trunc a = some m ∧ InRange32 m ∧
    Arithmetic.trunc b = some n ∧ InRange32 n ∧ n ≠ 0 ∧ InRange32 (m.tdiv n) ∧
      x = Arithmetic.ofInt (m.tmod n) := by
  constructor
  · intro h
    unfold remOf at h
    cases ha : toInt a with
    | error crash =>
      rw [ha] at h
      cases h
    | ok m =>
      cases hb : toInt b with
      | error crash =>
        rw [ha, hb] at h
        cases h
      | ok n =>
        rw [ha, hb] at h
        have h : (remF m n >>= fun r => .ok (Arithmetic.ofInt r)) = .ok x := h
        unfold remF at h
        split at h
        · cases h
        · rename_i hdef
          rw [not_or, not_not] at hdef
          cases h
          exact ⟨m, n, (of_toInt ha).1, (of_toInt ha).2, (of_toInt hb).1, (of_toInt hb).2, hdef.1,
            hdef.2, rfl⟩
  · rintro ⟨m, n, ha, hm, hb, hn, hzero, hquot, rfl⟩
    have hdef : ¬ (n = 0 ∨ ¬ InRange32 (m.tdiv n)) := by
      rintro (h | h)
      · exact hzero h
      · exact h hquot
    rw [remOf, toInt_of_fits ha hm, toInt_of_fits hb hn]
    show (remF m n >>= fun r => .ok (Arithmetic.ofInt r)) = _
    rw [remF, if_neg hdef]
    rfl

theorem tdiv_inRange {a b : Int} (ha : InRange32 a) (h : ¬ (a = INT_MIN ∧ b = -1)) :
    InRange32 (a.tdiv b) := by
  unfold InRange32 INT_MIN INT_MAX at ha ⊢
  unfold INT_MIN at h
  have hle : (a.tdiv b).natAbs ≤ a.natAbs := Int.natAbs_tdiv_le_natAbs a b
  by_cases hmin : a = -2147483648
  · -- the quotient of `INT_MIN` and `1` is in range, and any other is at most half of it
    by_cases hone : b = 1
    · rw [hone, Int.tdiv_one]
      exact ha
    · by_cases hzero : b = 0
      · rw [hzero, Int.tdiv_zero]
        decide
      · have htwo : 2 ≤ b.natAbs := by omega
        have hdiv : (a.tdiv b).natAbs = a.natAbs / b.natAbs := Int.natAbs_tdiv a b
        have hhalf : a.natAbs / b.natAbs ≤ a.natAbs / 2 := Nat.div_le_div_left htwo (by decide)
        omega
  · omega

/-- With every literal and quotient in range, the value is what is computed. -/
theorem Expr.evaluate_eq (hx : Decimal strtod) {t : Expr} (hl : t.LiteralsInRange strtod)
    (hz : t.NoZeroDivisor D) (hr : t.RemInRange D) (hq : t.QuotientsInRange D) :
    t.evaluate strtod = .ok t.value := by
  induction t with
  | lit l =>
    have hin : (strtod l.digits).2 = false := hl
    have hread := hx l.numeral [] (.inl rfl)
    rw [List.append_nil, l.unsigned_eq] at hread
    rw [evaluate]
    simp only [hin, hread hin, Bool.false_eq_true, if_false]
    rfl
  | bin op l r ihl ihr =>
    obtain ⟨hll, hlr⟩ := hl
    obtain ⟨hzl, hzr, hdiv, hzero⟩ := hz
    obtain ⟨hrl, hrr, hrange⟩ := hr
    obtain ⟨hql, hqr, hquot⟩ := hq
    rw [evaluate, ihl hll hzl hrl hql, ihr hlr hzr hrr hqr]
    show op.apply (l.value : D) r.value = _
    cases op with
    | add | sub | mul => rfl
    | div =>
      rw [BinOp.apply, hdiv rfl]
      rfl
    | rem =>
      obtain ⟨⟨m, hm, hmr⟩, n, hn, hnr⟩ := hrange rfl
      have hnz : n ≠ 0 := by
        rintro rfl
        exact hzero rfl hn
      have hrem : remOf (l.value : D) r.value = .ok (Arithmetic.ofInt (m.tmod n)) := by
        refine remOf_ok_iff.mpr ⟨m, n, hm, hmr, hn, hnr, hnz, tdiv_inRange hmr ?_, rfl⟩
        rintro ⟨rfl, rfl⟩
        exact hquot rfl ⟨hm, hn⟩
      rw [BinOp.apply, hrem, value, hm, hn]
      rfl

end Calculator
end Labs
