import Labs.Calculator.Turns

/-!
# After a reset

The label `reset` pops until a popped value compares equal to `EOS`. `pop` answers `EOS` at the end of
the stack, but `EOS` is `0`, which is also a number, so the loop stops at the first zero on the stack
and leaves what is below it. And only `parseTok` sets the type back: the checks of `/` and `%` come to
the label with the type that the line has.

## Which tokens need what

A token that is no operator comes to the label through `parseTok`, which has set the type to `INT`,
so only the stack is in question. At a division by zero the divisor has been popped and the type is
the one of the line, so the rest of the stack and the type are both in question. A remainder comes
there because the type is `DOUBLE`, and it stays that: no such reset is complete. These are the
three cases of `ResetsAll`.

A zero that is the lowest item does no harm. The loop stops with it as it would have stopped behind
it, and nothing is left (`drain_eq_nil_iff`).
-/

namespace Labs
namespace Calculator

open Lib

variable {D : Type} [Arithmetic D] {strtod : List UInt8 → D × Bool} {c c' : Calc D} {tok : List UInt8}
  {toks more : List (List UInt8)} {said later : List Said} {oper : Op}

/-! ## 1. The loop at the label -/

/-- No item but the lowest compares equal to zero. In doubles that is `0.0` and `-0.0`, and nothing else. -/
def Drains (xs : List D) : Prop := ∀ x ∈ xs.dropLast, Arithmetic.isZero x = false

theorem drain_eq_nil_iff (xs : List D) : drain xs = [] ↔ Drains xs := by
  unfold Drains
  induction xs with
  | nil => exact ⟨fun _ x hx => absurd hx List.not_mem_nil, fun _ => rfl⟩
  | cons x xs ih =>
    cases xs with
    | nil =>
      have hlast : drain [x] = [] := by
        unfold drain
        split
        · rfl
        · rfl
      exact ⟨fun _ x hx => absurd hx List.not_mem_nil, fun _ => hlast⟩
    | cons y ys =>
      rw [List.dropLast_cons_of_ne_nil (List.cons_ne_nil y ys), List.forall_mem_cons, ← ih]
      unfold drain
      split
      · rename_i hzero
        exact iff_of_false (List.cons_ne_nil _ _) fun h => absurd hzero (by rw [h.1]; decide)
      · rename_i hne
        exact ⟨fun h => ⟨Bool.eq_false_of_not_eq_true hne, h⟩, fun h => h.2⟩

/-! ## 2. One reset -/

/-- The stack is empty, and the type is the one of the start. -/
def Fresh (c : Calc D) : Prop := c.stack.idx = 0 ∧ c.type = .INT

/-- What the reset of this token needs: for a divisor that is zero, of the stack behind it. -/
def ResetsAll (c : Calc D) (tok : List UInt8) : Prop :=
  match operator tok with
  | some .DIV => Drains c.stack.items.tail ∧ c.type = .INT
  | some .REM => False
  | _ => Drains c.stack.items

theorem popItems_tail (xs : List D) : (popItems xs).2 = xs.tail := by
  cases xs with
  | nil => rfl
  | cons x xs => rfl

theorem fresh_reset (c : Calc D) (said : List Said) :
    Fresh (reset c said).2.1 ↔ Drains c.stack.items ∧ c.type = .INT := by
  rw [← drain_eq_nil_iff, ← List.length_eq_zero_iff]
  exact Iff.rfl

/-- Only two of the operators can come to the label. -/
theorem ordered_reset (h : ordered oper c = .ok (.tryAgain, c', said)) :
    (oper = .DIV ∧ (Fresh c' ↔ Drains c.stack.items.tail ∧ c.type = .INT)) ∨
      (oper = .REM ∧ ¬ Fresh c') := by
  unfold ordered at h
  simp only at h
  split at h
  · rename_i hdiv
    have hc' := Except.ok.inj h
    have hfresh := fresh_reset { c with stack := (pop c.stack).2 } [.divisionByZero]
    rw [hc'] at hfresh
    have hitems : (pop c.stack).2.items = c.stack.items.tail := popItems_tail _
    exact .inl ⟨hdiv.1, hitems ▸ hfresh⟩
  · split at h
    · rename_i hrem
      have hc' := Except.ok.inj h
      have hfresh := fresh_reset { c with stack := (pop c.stack).2 } [.remainderOfDouble]
      rw [hc'] at hfresh
      refine .inr ⟨hrem.1, fun hall => ?_⟩
      cases hrem.2.symm.trans (hfresh.mp hall).2
    · split at h
      · cases h
      · cases h
      · cases hrem : remOf (pop (pop c.stack).2).1 (pop c.stack).1 with
        | error crash =>
          rw [hrem] at h
          cases h
        | ok x =>
          rw [hrem] at h
          cases h

/-- **A reset leaves an empty stack and the first type exactly if it needs not pass a zero, nor to
    change the type.** -/
theorem step_reset (h : step strtod c tok = .ok (.tryAgain, c', said)) :
    Fresh c' ↔ ResetsAll c tok := by
  unfold ResetsAll
  unfold step at h
  cases hstart : startsWithDigit (unsignedOf tok) with
  | true =>
    have haction : (parseTok strtod tok c.val c.type).action = _ := action_digit hstart
    split at haction
    · simp only [haction] at h
      cases h
    · simp only [haction] at h
      cases h
  | false =>
    rw [parseTok_other hstart] at h
    cases hoper : operator tok with
    | none =>
      rw [hoper] at h
      cases h
      exact (fresh_reset ⟨c.stack, c.val, .INT⟩ []).trans (and_iff_left rfl)
    | some oper =>
      obtain ⟨op, -, -, -, rfl⟩ := of_operator hoper
      rw [hoper] at h
      have hordered : ∀ oper, (ordered oper c >>= fun r => .ok (r.1, r.2.1, [] ++ r.2.2)) =
          Except.ok (Flow.tryAgain, c', said) → ordered oper c = .ok (.tryAgain, c', said) := by
        intro oper hrun
        obtain ⟨⟨flow, c₁, now⟩, hcall, hr⟩ := of_bind_ok hrun
        cases hr
        exact hcall
      cases op with
      | add => cases h
      | mul => cases h
      | sub =>
        rcases ordered_reset (hordered .SUB h) with ⟨hdiv, -⟩ | ⟨hrem, -⟩
        · cases hdiv
        · cases hrem
      | div =>
        rcases ordered_reset (hordered .DIV h) with ⟨-, hfresh⟩ | ⟨hrem, -⟩
        · exact hfresh
        · cases hrem
      | rem =>
        rcases ordered_reset (hordered .REM h) with ⟨hdiv, -⟩ | ⟨-, hfresh⟩
        · cases hdiv
        · exact ⟨fun h => absurd h hfresh, False.elim⟩

/-! ## 3. The line with the reset -/

/-- **Where a token resets, control returns to the prompt with what that leaves, which is an empty
    stack and the first type exactly if no zero is passed and the type is not to be changed.** -/
theorem line_reset_iff {buf : List UInt8} {before : Calc D}
    (hline : (tokens SPACE (cstr buf)).1 = toks ++ tok :: more)
    (hbefore : tokenLoop strtod c toks = .ok (.next, before, said))
    (hreset : step strtod before tok = .ok (.tryAgain, c', later)) :
    line strtod c buf = .ok (some c', said ++ later) ∧ (Fresh c' ↔ ResetsAll before tok) := by
  have hloop : tokenLoop strtod before (tok :: more) = .ok (.tryAgain, c', later) :=
    tokenLoop_stop hreset (by decide)
  refine ⟨?_, step_reset hreset⟩
  rw [line_eq, hline, tokenLoop_append hbefore, hloop]
  rfl

/-- `5 0 /`. -/
theorem line_reset_division :
    line strtodDecimal (Calc.init : Calc Float) (ascii "5 0 /\n") =
      .ok (some ⟨initStack, 0, .INT⟩, [] ++ [.divisionByZero]) ∧
    (Fresh (⟨initStack, 0, .INT⟩ : Calc Float) ↔
      ResetsAll (⟨push (push initStack 5) 0, 0, .INT⟩ : Calc Float) (ascii "/\n")) :=
  line_reset_iff (show (tokens SPACE (cstr (ascii "5 0 /\n"))).1 = [ascii "5", ascii "0"] ++ ascii "/\n" :: []
      from by decide +kernel)
    (by decide +kernel) (by decide +kernel)

/-- `4 0 5 x` leaves the `4`, and `1.5 2 %` and `1.5 0 /` leave the type. -/
theorem reset_leaves_items :
    line strtodDecimal (Calc.init : Calc Float) (ascii "4 0 5 x\n") =
      .ok (some ⟨push initStack 4, 5, .INT⟩, [.invalidOperation]) ∧
    ¬ Fresh (⟨push initStack 4, 5, .INT⟩ : Calc Float) ∧
    line strtodDecimal (Calc.init : Calc Float) (ascii "1.5 2 %\n") =
      .ok (some ⟨initStack, 2, .DOUBLE⟩, [.remainderOfDouble]) ∧
    line strtodDecimal (Calc.init : Calc Float) (ascii "1.5 0 /\n") =
      .ok (some ⟨initStack, 0, .DOUBLE⟩, [.divisionByZero]) ∧
    ∀ val, ¬ Fresh (⟨initStack, val, .DOUBLE⟩ : Calc Float) := by
  refine ⟨by decide +kernel, fun h => ?_, by decide +kernel, by decide +kernel, fun val h => ?_⟩
  · exact absurd h.1 (by decide +kernel)
  · cases h.2

end Calculator
end Labs
