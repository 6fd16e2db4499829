import Labs.Calculator.Program

/-!
# Numerals

A numeral is an optional sign, digits, and optionally a point with further digits. `parseTok` looks at
the first character, or the second behind a sign; what starts with a digit goes to `strtod` without its
sign (`parseTok_number`), and anything else is an operator or nothing (`parseTok_other`). So a numeral is
a `NUM` with its value (`step_num`), or the end of the program if it is out of range.

`strtod` is not the program's. Two things are said of it where they are needed: it converts a numeral to
its value unless it sets `errno` (`Decimal`), and stops in front of a newline (`StopsAtNewline`).
`strtodDecimal` does so.

## What the scan is good for

The loop over the characters of a number finds out whether there is a point, and complains of what
it does not like. Its verdict is thrown away: the statement behind it makes every token that starts
with a digit a `NUM` (`action_parseNumber`), and the value is what `strtod` makes of the front of
the text. So the scan is left with the type, and `scanNumber` is looked at only for that.

The text that `strtod` gets may end in the newline of the line, and a numeral is the same with it or
without. That is why `LineEnd` is everywhere: a token is a text, and perhaps a newline behind it.

A `Numeral` carries what makes it one, so no lemma has to ask again whether there are digits. Its
value is that of the digits, and of the number of them behind the point; it is rounded once, as
`strtod` does it.
-/

namespace Labs
namespace Calculator

open Lib

/-- A sign, digits, and digits behind a point. -/
structure Numeral where
  negative : Bool
  whole : List UInt8
  whole_ne : whole ≠ []
  whole_isdigit : ∀ b ∈ whole, isdigit b
  fraction : Option (List UInt8)
  fraction_ne : fraction ≠ some []
  fraction_isdigit : ∀ ds ∈ fraction, ∀ b ∈ ds, isdigit b

namespace Numeral

def point : Option (List UInt8) → List UInt8
  | none => []
  | some ds => DOT :: ds

/-- The text behind the sign. -/
def unsigned (n : Numeral) : List UInt8 := n.whole ++ point n.fraction

def text (n : Numeral) : List UInt8 := (if n.negative then [MINUS] else []) ++ n.unsigned

def decimals (n : Numeral) : List UInt8 := n.fraction.getD []

section Value

variable {D : Type} [Arithmetic D]

def magnitude (n : Numeral) : D :=
  Arithmetic.ofDecimal (digitsValue (n.whole ++ n.decimals)) n.decimals.length

def value (n : Numeral) : D := if n.negative then -n.magnitude else n.magnitude

end Value

end Numeral

/-- Nothing, or the newline that ends the line. -/
def LineEnd (e : List UInt8) : Prop := e = [] ∨ e = [NEWLINE]

variable {D : Type} [Arithmetic D]

/-- There is a sign in front of a digit. -/
def isSigned (tok : List UInt8) : Bool := tok.head? == some MINUS && startsWithDigit tok.tail

/-- What `strtod` is given, if it is. -/
def unsignedOf (tok : List UInt8) : List UInt8 := if isSigned tok then tok.tail else tok

/-- The number is out of the range of a `double`. -/
def OutOfRange (strtod : List UInt8 → D × Bool) (tok : List UInt8) : Prop :=
  (strtod (unsignedOf tok)).2 = true

/-- `strtod` converts a numeral to its value, unless it is out of range. -/
def Decimal (strtod : List UInt8 → D × Bool) : Prop :=
  ∀ (n : Numeral) (e : List UInt8), LineEnd e → (strtod (n.unsigned ++ e)).2 = false →
    (strtod (n.unsigned ++ e)).1 = n.magnitude

/-- `strtod` stops in front of a newline. -/
def StopsAtNewline (strtod : List UInt8 → D × Bool) : Prop :=
  ∀ n : Numeral, strtod (n.unsigned ++ [NEWLINE]) = strtod n.unsigned

variable {strtod : List UInt8 → D × Bool} {tok e : List UInt8} {val : D} {type : Mode} {oper : Op}
  {c : Calc D}

/-! ## 1. `parseTok` -/

theorem unsignedOf_eq (h : startsWithDigit (unsignedOf tok) = false) : unsignedOf tok = tok := by
  unfold unsignedOf at h ⊢
  cases hsign : isSigned tok with
  | false => rfl
  | true =>
    rw [hsign] at h
    have hdigit : startsWithDigit tok.tail = true := (Bool.and_eq_true_iff.mp hsign).2
    cases hdigit.symm.trans h

theorem parseTok_number (h : startsWithDigit (unsignedOf tok) = true) :
    parseTok strtod tok val type = parseNumber strtod (isSigned tok) (unsignedOf tok) type :=
  if_pos h

theorem parseTok_other (h : startsWithDigit (unsignedOf tok) = false) :
    parseTok strtod tok val type = match operator tok with
      | some oper => ⟨oper, val, type, []⟩
      | none => ⟨.RESET, val, .INT, if tok.head? = some NEWLINE then [] else [.invalidOperation]⟩ := by
  have hsame := unsignedOf_eq h
  have hunfold : parseTok strtod tok val type = if startsWithDigit (unsignedOf tok) then
        parseNumber strtod (isSigned tok) (unsignedOf tok) type
      else match operator (unsignedOf tok) with
        | some oper => ⟨oper, val, type, []⟩
        | none => ⟨.RESET, val, .INT,
          if (unsignedOf tok).head? = some NEWLINE then [] else [.invalidOperation]⟩ := rfl
  rw [hunfold, h, hsame]
  rfl

/-- A number is one whatever the loop over its characters has found. -/
theorem action_parseNumber (isNegative : Bool) (buf : List UInt8) :
    (parseNumber strtod isNegative buf type).action =
      if (strtod buf).2 = true then .FATAL_ERR else .NUM := by
  unfold parseNumber
  simp only
  split <;> rfl

theorem val_parseNumber (isNegative : Bool) (buf : List UInt8) :
    (parseNumber strtod isNegative buf type).val =
      if isNegative then -(strtod buf).1 else (strtod buf).1 := by
  unfold parseNumber
  simp only
  split <;> rfl

/-! ## 2. Numerals -/

theorem digit_ne_dot {b : UInt8} (h : isdigit b) : b ≠ DOT := by
  rintro rfl
  exact absurd h (by decide)

theorem startsWithDigit_digits {ds : List UInt8} (hne : ds ≠ []) (hds : ∀ b ∈ ds, isdigit b)
    (e : List UInt8) : startsWithDigit (ds ++ e) = true := by
  cases ds with
  | nil => exact absurd rfl hne
  | cons d ds => exact hds d List.mem_cons_self

theorem Numeral.signed_text (n : Numeral) (e : List UInt8) : isSigned (n.text ++ e) = n.negative ∧
    unsignedOf (n.text ++ e) = n.unsigned ++ e ∧ startsWithDigit (n.unsigned ++ e) = true := by
  obtain ⟨negative, whole, hne, hds, fraction, hfne, hfds⟩ := n
  have hstart : startsWithDigit (whole ++ Numeral.point fraction ++ e) = true := by
    rw [List.append_assoc]
    exact startsWithDigit_digits hne hds _
  cases negative with
  | true =>
    have hsign : isSigned (MINUS :: (whole ++ Numeral.point fraction ++ e)) = true := hstart
    exact ⟨hsign, if_pos hsign, hstart⟩
  | false =>
    have hsign : isSigned (whole ++ Numeral.point fraction ++ e) = false := by
      cases whole with
      | nil => exact absurd rfl hne
      | cons d ds =>
        have hminus : d ≠ MINUS := by
          rintro rfl
          exact absurd (hds MINUS List.mem_cons_self) (by decide)
        show ((some d == some MINUS) && _) = false
        rw [Option.some_beq_some, beq_false_of_ne hminus, Bool.false_and]
    refine ⟨hsign, ?_, hstart⟩
    show (if isSigned (whole ++ Numeral.point fraction ++ e) = true then _ else _) = _
    rw [hsign]
    rfl

theorem scanNumber_append {ds : List UInt8} (hds : ∀ b ∈ ds, isdigit b) (rest : List UInt8)
    {dots : Nat} (hdots : dots ≤ 1) :
    scanNumber dots type (ds ++ rest) = scanNumber dots type rest := by
  induction ds with
  | nil => rfl
  | cons d ds ih =>
    have hd := hds d List.mem_cons_self
    rw [List.cons_append, scanNumber, if_neg (digit_ne_dot hd), if_neg]
    · exact ih fun b hb => hds b (List.mem_cons_of_mem d hb)
    · rintro (h | h)
      · exact absurd h (Nat.not_lt.mpr hdots)
      · cases hd.symm.trans h.1

/-- The type behind a numeral. -/
def Numeral.typeAfter (n : Numeral) (type : Mode) : Mode :=
  if n.fraction.isSome then .DOUBLE else type

/-- There is nothing to complain about in a numeral. -/
theorem scanNumber_numeral (n : Numeral) (he : LineEnd e) :
    scanNumber 0 type (n.unsigned ++ e) = (n.typeAfter type, false) := by
  obtain ⟨negative, whole, hne, hds, fraction, hfne, hfds⟩ := n
  have hend : ∀ {dots : Nat} {type : Mode}, dots ≤ 1 → scanNumber dots type e = (type, false) := by
    intro dots type hdots
    rcases he with rfl | rfl
    · rfl
    · rw [scanNumber, if_neg (by decide), if_neg]
      · rfl
      · rintro (h | h)
        · exact absurd h (Nat.not_lt.mpr hdots)
        · exact h.2 rfl
  unfold Numeral.unsigned
  rw [List.append_assoc, scanNumber_append hds _ (Nat.zero_le 1)]
  cases fraction with
  | none => exact hend (Nat.zero_le 1)
  | some ds =>
    show scanNumber 0 type (DOT :: (ds ++ e)) = _
    rw [scanNumber, if_pos rfl, scanNumber_append (hfds ds rfl) e (Nat.le_refl 1)]
    exact hend (Nat.le_refl 1)

theorem step_num (n : Numeral) (he : LineEnd e) : step strtod c (n.text ++ e) =
    if (strtod (n.unsigned ++ e)).2 = true then
      .ok (.disgrace, ⟨c.stack, if n.negative then -(strtod (n.unsigned ++ e)).1
        else (strtod (n.unsigned ++ e)).1, .INT⟩, [])
    else
      let val := if n.negative then -(strtod (n.unsigned ++ e)).1 else (strtod (n.unsigned ++ e)).1
      .ok (.next, ⟨push c.stack val, val, n.typeAfter c.type⟩, []) := by
  obtain ⟨hsign, htext, hstart⟩ := n.signed_text e
  have hparse : parseTok strtod (n.text ++ e) c.val c.type =
      parseNumber strtod n.negative (n.unsigned ++ e) c.type := by
    rw [parseTok_number (htext ▸ hstart), hsign, htext]
  rw [step, hparse]
  unfold parseNumber
  simp only [scanNumber_numeral n he]
  cases (strtod (n.unsigned ++ e)).2 with
  | true => rfl
  | false => rfl

/-- A numeral is a number with its value, unless it is out of range. -/
theorem parseTok_numeral (hx : Decimal strtod) (n : Numeral) (he : LineEnd e)
    (heq : tok = n.text ++ e) (val : D) (type : Mode) :
    (OutOfRange strtod tok ∧ (parseTok strtod tok val type).action = .FATAL_ERR) ∨
    (¬ OutOfRange strtod tok ∧ (parseTok strtod tok val type).action = .NUM ∧
      (parseTok strtod tok val type).val = n.value) := by
  obtain ⟨hsign, htext, hstart⟩ := n.signed_text e
  rw [← heq] at hsign htext
  rw [parseTok_number (htext ▸ hstart), action_parseNumber, val_parseNumber, hsign]
  unfold OutOfRange
  rw [htext]
  cases herrno : (strtod (n.unsigned ++ e)).2 with
  | true => exact .inl ⟨rfl, rfl⟩
  | false =>
    refine .inr ⟨Bool.false_ne_true, rfl, ?_⟩
    rw [hx n e he herrno]
    rfl

/-- The bytes of a numeral. -/
theorem Numeral.mem_text {n : Numeral} {b : UInt8} (h : b ∈ n.text) :
    b = MINUS ∨ b = DOT ∨ isdigit b = true := by
  rcases List.mem_append.mp h with h | h
  · split at h
    · exact .inl (List.mem_singleton.mp h)
    · cases h
  · rcases List.mem_append.mp h with h | h
    · exact .inr (.inr (n.whole_isdigit b h))
    · cases hfraction : n.fraction with
      | none =>
        rw [hfraction] at h
        cases h
      | some ds =>
        rw [hfraction] at h
        rcases List.mem_cons.mp h with rfl | h
        · exact .inr (.inl rfl)
        · exact .inr (.inr (n.fraction_isdigit ds hfraction b h))

/-! ## 3. A `strtod` -/

/-- `strtod` of digits, with or without a point; a number that is too large sets `errno`. -/
def strtodDecimal (text : List UInt8) : D × Bool :=
  let whole := text.takeWhile isdigit
  let rest := text.drop whole.length
  let fraction := if rest.head? = some DOT then rest.tail.takeWhile isdigit else []
  let val : D := Arithmetic.ofDecimal (digitsValue (whole ++ fraction)) fraction.length
  (val, (Arithmetic.trunc val).isNone)

theorem takeWhile_digits {ds rest : List UInt8} (hds : ∀ b ∈ ds, isdigit b)
    (hrest : ∀ b ∈ rest.head?, isdigit b = false) : (ds ++ rest).takeWhile isdigit = ds := by
  rw [List.takeWhile_append_of_pos hds]
  cases rest with
  | nil => exact List.append_nil ds
  | cons b rest => rw [List.takeWhile_cons, hrest b rfl, if_neg Bool.false_ne_true, List.append_nil]

/-- A numeral is read as its magnitude. -/
theorem strtodDecimal_numeral (n : Numeral) (he : LineEnd e) :
    strtodDecimal (D := D) (n.unsigned ++ e) =
      (n.magnitude, (Arithmetic.trunc (n.magnitude : D)).isNone) := by
  obtain ⟨negative, whole, hne, hds, fraction, hfne, hfds⟩ := n
  have hend : ∀ b ∈ e.head?, isdigit b = false := by
    intro b hb
    rcases he with rfl | rfl
    · cases hb
    · cases hb
      decide
  cases fraction with
  | none =>
    have hwhole : (whole ++ [] ++ e).takeWhile isdigit = whole := by
      rw [List.append_nil]
      exact takeWhile_digits hds hend
    have hpoint : ¬ ((whole ++ [] ++ e).drop whole.length).head? = some DOT := by
      rw [List.append_nil, List.drop_left]
      rcases he with rfl | rfl
      · exact nofun
      · decide
    show strtodDecimal (whole ++ [] ++ e) = _
    unfold strtodDecimal
    simp only [hwhole, if_neg hpoint]
    rfl
  | some ds =>
    have hwhole : (whole ++ DOT :: ds ++ e).takeWhile isdigit = whole := by
      rw [List.append_assoc]
      refine takeWhile_digits hds fun b hb => ?_
      cases hb
      decide
    have hrest : (whole ++ DOT :: ds ++ e).drop whole.length = DOT :: (ds ++ e) := by
      rw [List.append_assoc, List.drop_left]
      rfl
    have hfraction : (ds ++ e).takeWhile isdigit = ds := takeWhile_digits (hfds ds rfl) hend
    show strtodDecimal (whole ++ DOT :: ds ++ e) = _
    unfold strtodDecimal
    simp only [hwhole, hrest, List.head?_cons, if_true, List.tail_cons, hfraction]
    rfl

theorem decimal_strtodDecimal : Decimal (strtodDecimal (D := D)) := by
  intro n e he _
  rw [strtodDecimal_numeral n he]

theorem stopsAtNewline_strtodDecimal : StopsAtNewline (strtodDecimal (D := D)) := by
  intro n
  have hplain := strtodDecimal_numeral (D := D) n (.inl rfl)
  rw [List.append_nil] at hplain
  rw [strtodDecimal_numeral n (.inr rfl), hplain]

end Calculator
end Labs
