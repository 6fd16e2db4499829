import Labs.Calculator.Lines

/-!
# The tokens that are accepted

A numeral is an optional sign, digits, and optionally a point with further digits. `parseTok` sends
everything that starts like a numeral to `strtod`: the loop over its characters complains about what
is none and sets `action = RESET`, but behind the loop `action` becomes `NUM` in any case. So a token
is classified as the grammar says unless it starts like a numeral, is none, and `strtod` finds the
number at its start in range.

## Three classes of tokens

The first character decides what a token is read as, a sign in front of a digit being part of it. If
that is a digit the token is a number or the end of the program, never a `RESET` (`action_digit`).
If it is not, it is an operator when nothing stands behind it but a newline, and a `RESET`
otherwise. So the two halves of the result do not overlap, and each has its own lemma.

In the first half everything hangs on `strtod`. It reads the longest number at the front, so a token
that is no numeral is a number all the same, unless that number is out of range; then the program
ends, as it would for a numeral. The condition names exactly these tokens.

`Classified` asks that nothing be pushed for what is refused. A `RESET` takes items away, and that
is all it may do to the stack (`step_suffix`).
-/

namespace Labs
namespace Calculator

open Lib

/-- A string without spaces that is not empty; a newline may end it. -/
structure IsToken (tok : List UInt8) : Prop where
  ne_nil : tok ≠ []
  plain : ∃ body e, tok = body ++ e ∧ LineEnd e ∧ ∀ b ∈ body, b ∉ [32, NUL, NEWLINE]

def IsNumeral (tok : List UInt8) : Prop := ∃ (n : Numeral) (e : _), LineEnd e ∧ tok = n.text ++ e

def IsOperator (tok : List UInt8) : Prop := ∃ (op : BinOp) (e : _), LineEnd e ∧ tok = op.char :: e

variable {D : Type} [Arithmetic D] {strtod : List UInt8 → D × Bool} {tok e : List UInt8} {val : D}
  {type : Mode} {oper : Op} {c : Calc D}

/-! ## 1. Operators -/

theorem operator_cons {b : UInt8} (he : LineEnd e) : operator (b :: e) = operOf b := by
  rcases he with rfl | rfl
  · rfl
  · rfl

theorem operOf_char (op : BinOp) : operOf op.char = some op.oper := by
  cases op <;> rfl

theorem of_operOf {b : UInt8} (h : operOf b = some oper) :
    ∃ op : BinOp, b = op.char ∧ oper = op.oper := by
  unfold operOf at h
  split at h
  · rename_i hb
    cases h
    exact ⟨.add, hb, rfl⟩
  · split at h
    · rename_i hb
      cases h
      exact ⟨.sub, hb, rfl⟩
    · split at h
      · rename_i hb
        cases h
        exact ⟨.div, hb, rfl⟩
      · split at h
        · rename_i hb
          cases h
          exact ⟨.mul, hb, rfl⟩
        · split at h
          · rename_i hb
            cases h
            exact ⟨.rem, hb, rfl⟩
          · cases h

theorem isdigit_char (op : BinOp) : isdigit op.char = false := by
  cases op <;> decide

theorem of_operator (h : operator tok = some oper) : ∃ (op : BinOp) (rest : _),
    tok = op.char :: rest ∧ (rest.head? = none ∨ rest.head? = some NEWLINE) ∧ oper = op.oper := by
  cases tok with
  | nil => cases h
  | cons b rest =>
    have h : (if rest.head? = none ∨ rest.head? = some NEWLINE then operOf b else none) =
      some oper := h
    split at h
    · rename_i hrest
      obtain ⟨op, rfl, hoper⟩ := of_operOf h
      exact ⟨op, rest, rfl, hrest, hoper⟩
    · cases h

/-- What is an operator is not read as a number. -/
theorem not_digit_of_operator (h : operator tok = some oper) :
    startsWithDigit (unsignedOf tok) = false := by
  obtain ⟨op, rest, rfl, hrest, -⟩ := of_operator h
  have hno : startsWithDigit rest = false := by
    unfold startsWithDigit
    rcases hrest with hrest | hrest
    · rw [hrest]
      rfl
    · rw [hrest]
      rfl
  have hsign : isSigned (op.char :: rest) = false := by
    show (_ && startsWithDigit rest) = false
    rw [hno, Bool.and_false]
  unfold unsignedOf
  rw [hsign]
  exact isdigit_char op

theorem parseTok_operator (h : operator tok = some oper) :
    parseTok strtod tok val type = ⟨oper, val, type, []⟩ := by
  rw [parseTok_other (not_digit_of_operator h), h]

/-! ## 2. Classification -/

/-- `parseTok` classifies the token as the grammar says. -/
structure Classified (strtod : List UInt8 → D × Bool) (tok : List UInt8) : Prop where
  numeral : ∀ (n : Numeral) e, LineEnd e → tok = n.text ++ e → ∀ val type,
    (OutOfRange strtod tok ∧ (parseTok strtod tok val type).action = .FATAL_ERR) ∨
      (¬ OutOfRange strtod tok ∧ (parseTok strtod tok val type).action = .NUM ∧
        (parseTok strtod tok val type).val = n.value)
  number : ∀ val type, (parseTok strtod tok val type).action = .NUM → ∃ (n : Numeral) (e : _),
    LineEnd e ∧ tok = n.text ++ e ∧ (parseTok strtod tok val type).val = n.value
  oper : ∀ (op : BinOp) val type, (parseTok strtod tok val type).action = op.oper ↔
    ∃ e, LineEnd e ∧ tok = op.char :: e
  other : ¬ IsNumeral tok → ¬ IsOperator tok → ∀ val type,
    (parseTok strtod tok val type).action = .RESET ∨
      (OutOfRange strtod tok ∧ (parseTok strtod tok val type).action = .FATAL_ERR)
  unpushed : ¬ IsNumeral tok → ¬ IsOperator tok → ∀ c flow c' said,
    step strtod c tok = .ok (flow, c', said) → c'.stack.items <:+ c.stack.items

/-- An operator of one character. -/
theorem operator_token (htok : IsToken tok) :
    operator tok = some oper ↔
      ∃ (op : BinOp) (e : _), oper = op.oper ∧ LineEnd e ∧ tok = op.char :: e := by
  constructor
  · intro h
    obtain ⟨op, rest, rfl, hrest, rfl⟩ := of_operator h
    obtain ⟨body, e, heq, he, hbody⟩ := htok.plain
    cases body with
    | nil =>
      rcases he with rfl | rfl
      · cases heq
      · cases op <;> cases heq
    | cons b body =>
      obtain ⟨rfl, rfl⟩ := List.cons.inj heq
      cases body with
      | nil => exact ⟨op, e, rfl, he, rfl⟩
      | cons b body =>
        -- no newline stands inside a token
        rcases hrest with hrest | hrest
        · cases hrest
        · cases hrest
          exact absurd (hbody NEWLINE (by simp)) (by decide)
  · rintro ⟨op, e, rfl, he, rfl⟩
    rw [operator_cons he, operOf_char]

theorem oper_ne_num (op : BinOp) : op.oper ≠ .NUM ∧ op.oper ≠ .FATAL_ERR ∧ op.oper ≠ .RESET := by
  cases op <;> decide

theorem BinOp.oper_injective {op op' : BinOp} (h : op.oper = op'.oper) : op = op' := by
  cases op <;> cases op' <;> first | rfl | cases h

theorem action_other (h : startsWithDigit (unsignedOf tok) = false) :
    (parseTok strtod tok val type).action = (operator tok).getD .RESET := by
  rw [parseTok_other h]
  cases operator tok <;> rfl

theorem drain_suffix (xs : List D) : drain xs <:+ xs := by
  induction xs with
  | nil => exact List.suffix_rfl
  | cons x xs ih =>
    unfold drain
    split
    · exact List.suffix_cons x xs
    · exact ih.trans (List.suffix_cons x xs)

/-- `RESET` and `FATAL_ERR` push nothing. -/
theorem step_suffix {flow : Flow} {c' : Calc D} {said : List Said}
    (haction : (parseTok strtod tok c.val c.type).action = .RESET ∨
      (parseTok strtod tok c.val c.type).action = .FATAL_ERR)
    (h : step strtod c tok = .ok (flow, c', said)) : c'.stack.items <:+ c.stack.items := by
  unfold step at h
  rcases haction with haction | haction
  · simp only [haction] at h
    cases h
    exact drain_suffix _
  · simp only [haction] at h
    cases h
    exact List.suffix_rfl

/-- What starts like a numeral is never sent back. -/
theorem action_digit (h : startsWithDigit (unsignedOf tok) = true) :
    (parseTok strtod tok val type).action =
      if (strtod (unsignedOf tok)).2 = true then .FATAL_ERR else .NUM := by
  rw [parseTok_number h, action_parseNumber]

/-- A numeral, or what is out of range. -/
theorem classified_of_digit (hx : Decimal strtod) (hstart : startsWithDigit (unsignedOf tok) = true)
    (h : IsNumeral tok ∨ OutOfRange strtod tok) : Classified strtod tok := by
  have hfatal : ¬ IsNumeral tok → ∀ val type, OutOfRange strtod tok ∧
      (parseTok strtod tok val type).action = .FATAL_ERR := by
    intro hnone val type
    have hrange : OutOfRange strtod tok := h.resolve_left hnone
    exact ⟨hrange, (action_digit hstart).trans (if_pos hrange)⟩
  refine ⟨fun n e he => parseTok_numeral hx n he, fun val type hnum => ?_, fun op val type => ?_,
    fun hnone _ val type => .inr (hfatal hnone val type),
    fun hnone _ c flow c' said hstep => step_suffix (.inr (hfatal hnone c.val c.type).2) hstep⟩
  · have hsome : IsNumeral tok := by
      by_contra hnone
      cases hnum.symm.trans (hfatal hnone val type).2
    obtain ⟨n, e, he, heq⟩ := hsome
    rcases parseTok_numeral hx n he heq val type with ⟨-, hfail⟩ | ⟨-, -, hval⟩
    · cases hnum.symm.trans hfail
    · exact ⟨n, e, he, heq, hval⟩
  · constructor
    · intro heq
      rw [action_digit hstart] at heq
      split at heq
      · exact absurd heq.symm (oper_ne_num op).2.1
      · exact absurd heq.symm (oper_ne_num op).1
    · rintro ⟨e, he, rfl⟩
      have hoper : operator (op.char :: e) = some op.oper :=
        (operator_cons he).trans (operOf_char op)
      cases hstart.symm.trans (not_digit_of_operator hoper)

/-- An operator, or what is neither. -/
theorem classified_of_other (hx : Decimal strtod) (htok : IsToken tok)
    (hstart : startsWithDigit (unsignedOf tok) = false) : Classified strtod tok := by
  have haction : ∀ val type, (parseTok strtod tok val type).action = (operator tok).getD .RESET :=
    fun val type => action_other hstart
  have hreset : ¬ IsOperator tok → ∀ val type,
      (parseTok strtod tok val type).action = .RESET := by
    intro hnone val type
    rw [haction]
    cases hoper : operator tok with
    | none => rfl
    | some oper =>
      obtain ⟨op, e, -, he, heq⟩ := (operator_token htok).mp hoper
      exact absurd ⟨op, e, he, heq⟩ hnone
  refine ⟨fun n e he => parseTok_numeral hx n he, fun val type hnum => ?_,
    fun op val type => ?_, fun _ hnone val type => .inl (hreset hnone val type),
    fun _ hnone c flow c' said hstep => step_suffix (.inl (hreset hnone c.val c.type)) hstep⟩
  · rw [haction] at hnum
    cases hoper : operator tok with
    | none =>
      rw [hoper] at hnum
      cases hnum
    | some oper =>
      obtain ⟨op, e, rfl, -, -⟩ := (operator_token htok).mp hoper
      rw [hoper] at hnum
      exact absurd hnum (oper_ne_num op).1
  · rw [haction]
    constructor
    · intro heq
      cases hoper : operator tok with
      | none =>
        rw [hoper] at heq
        exact absurd heq.symm (oper_ne_num op).2.2
      | some oper =>
        obtain ⟨op', e, rfl, he, hcons⟩ := (operator_token htok).mp hoper
        rw [hoper] at heq
        cases BinOp.oper_injective heq
        exact ⟨e, he, hcons⟩
    · rintro ⟨e, he, rfl⟩
      rw [operator_cons he, operOf_char]
      rfl

/-- **A token is classified as the grammar says if and only if it does not start like a numeral, or is
    one, or `strtod` finds it out of range.** -/
theorem classified_iff (hx : Decimal strtod) (htok : IsToken tok) : Classified strtod tok ↔
    startsWithDigit (unsignedOf tok) = false ∨ IsNumeral tok ∨ OutOfRange strtod tok := by
  constructor
  · intro h
    by_contra hno
    rw [not_or, not_or, Bool.not_eq_false] at hno
    obtain ⟨hstart, hnumeral, hrange⟩ := hno
    have haction : (parseTok strtod tok (Arithmetic.ofInt 0) .INT).action = .NUM :=
      (action_digit hstart).trans (if_neg hrange)
    obtain ⟨n, e, he, heq, -⟩ := h.number (Arithmetic.ofInt 0) .INT haction
    exact hnumeral ⟨n, e, he, heq⟩
  · intro h
    cases hstart : startsWithDigit (unsignedOf tok) with
    | true => exact classified_of_digit hx hstart (h.resolve_left (by simp [hstart]))
    | false => exact classified_of_other hx htok hstart

/-! ## 3. Letters behind a number -/

theorem isToken_letters {s : String} (hne : ascii s ≠ [])
    (h : ∀ b ∈ ascii s, b ∉ [32, NUL, NEWLINE]) : IsToken (ascii s) :=
  ⟨hne, ascii s, [], (List.append_nil _).symm, .inl rfl, h⟩

theorem classified_iff_half : Classified (strtodDecimal (D := Float)) (ascii "-1.5") ↔
    startsWithDigit (unsignedOf (ascii "-1.5")) = false ∨ IsNumeral (ascii "-1.5") ∨
      OutOfRange (strtodDecimal (D := Float)) (ascii "-1.5") :=
  classified_iff decimal_strtodDecimal (isToken_letters (by decide) (by decide +kernel))

/-- `12a` is complained about, and `12` is pushed. -/
theorem letters_behind_number : IsToken (ascii "12a") ∧
    step strtodDecimal (Calc.init : Calc Float) (ascii "12a") =
      .ok (.next, ⟨push initStack 12, 12, .INT⟩, [.invalidNumber (ascii "12a")]) ∧
    ¬ Classified (strtodDecimal (D := Float)) (ascii "12a") := by
  refine ⟨isToken_letters (by decide) (by decide +kernel), by decide +kernel, fun h => ?_⟩
  obtain ⟨n, e, he, heq, -⟩ := h.number 0 .INT (by decide +kernel)
  have hmem : (97 : UInt8) ∈ n.text ++ e := by
    rw [← heq]
    decide
  rcases List.mem_append.mp hmem with hmem | hmem
  · exact absurd (Numeral.mem_text hmem) (by decide)
  · rcases he with rfl | rfl
    · cases hmem
    · exact absurd hmem (by decide)

end Calculator
end Labs
