import Labs.Calculator.Turns

/-!
# Remainders that fault

A `%` in type `INT` pops its operands, converts them to `int` and computes the remainder. Only `/`
looks at its divisor: a `%` by zero, by a fraction of one, or on an empty stack traps, and so does the
remainder of `INT_MIN` and `-1`; and an operand may be any number that has been computed before, also an
infinity. Nothing else in the `switch` can crash, so a token crashes the calculator exactly at a `%` whose
operands are not `HasRemainder` (`step_crash_iff`).
-/

namespace Labs
namespace Calculator

open Lib

variable {D : Type} [Arithmetic D] {strtod : List UInt8 → D × Bool} {c : Calc D} {tok : List UInt8}
  {crash : Crash} {a b x : D}

/-! ## 1. The operands -/

/-- Both operands are in the range of `int`, and there is a remainder of the two. -/
def HasRemainder (a b : D) : Prop := ∃ m n, Arithmetic.trunc a = some m ∧ InRange32 m ∧
  Arithmetic.trunc b = some n ∧ InRange32 n ∧ n ≠ 0 ∧ ¬ (m = INT_MIN ∧ n = -1)

/-- The quotient of the two is the only one that is out of range. -/
theorem tdiv_inRange_iff {a b : Int} (ha : InRange32 a) :
    InRange32 (a.tdiv b) ↔ ¬ (a = INT_MIN ∧ b = -1) := by
  refine ⟨?_, tdiv_inRange ha⟩
  rintro h ⟨rfl, rfl⟩
  exact absurd h (by decide)

theorem hasRemainder_iff (a b : D) : HasRemainder a b ↔ ∃ x, remOf a b = .ok x := by
  constructor
  · rintro ⟨m, n, ha, hm, hb, hn, hzero, hquot⟩
    exact ⟨_, remOf_ok_iff.mpr ⟨m, n, ha, hm, hb, hn, hzero, (tdiv_inRange_iff hm).mpr hquot, rfl⟩⟩
  · rintro ⟨x, h⟩
    obtain ⟨m, n, ha, hm, hb, hn, hzero, hquot, -⟩ := remOf_ok_iff.mp h
    exact ⟨m, n, ha, hm, hb, hn, hzero, (tdiv_inRange_iff hm).mp hquot⟩

/-- A remainder that is not computed is a crash. -/
theorem not_hasRemainder_iff (a b : D) : ¬ HasRemainder a b ↔ ∃ crash, remOf a b = .error crash := by
  rw [hasRemainder_iff]
  cases remOf a b with
  | ok x => exact iff_of_false (fun h => h ⟨x, rfl⟩) fun ⟨crash, h⟩ => nomatch h
  | error crash => exact iff_of_true (fun ⟨x, h⟩ => nomatch h) ⟨crash, rfl⟩

/-! ## 2. One token -/

theorem popItems_eq (xs : List D) : popItems xs = (xs.headD EOS, xs.tail) := by
  cases xs with
  | nil => rfl
  | cons x xs => rfl

/-- The two items that a `%` pops. -/
theorem ordered_rem (c : Calc D) : ordered .REM c =
    if c.type = .DOUBLE then .ok (reset { c with stack := (pop c.stack).2 } [.remainderOfDouble])
    else (remOf (c.stack.items.tail.headD EOS) (c.stack.items.headD EOS)).map
      (c.result (pop (pop c.stack).2).2) := by
  have htop : (pop c.stack).1 = c.stack.items.headD EOS :=
    congrArg Prod.fst (popItems_eq c.stack.items)
  have hitems : (pop c.stack).2.items = c.stack.items.tail :=
    congrArg Prod.snd (popItems_eq c.stack.items)
  have hnext : (pop (pop c.stack).2).1 = c.stack.items.tail.headD EOS := by
    rw [← hitems]
    exact congrArg Prod.fst (popItems_eq _)
  rw [← htop, ← hnext]
  unfold ordered
  simp only [reduceCtorEq, false_and, if_false, true_and]

theorem execute_crash_iff {oper : Op} : execute oper c = .error crash ↔
    oper = .REM ∧ c.type = .INT ∧
      remOf (c.stack.items.tail.headD EOS) (c.stack.items.headD EOS) = .error crash := by
  have hordered : ∀ oper, oper = .SUB ∨ oper = .DIV → ordered oper c ≠ .error crash := by
    intro oper hoper h
    unfold ordered at h
    simp only at h
    split at h
    · cases h
    · split at h
      · cases h
      · rcases hoper with rfl | rfl <;> cases h
  cases oper with
  | REM =>
    show ordered .REM c = _ ↔ _
    rw [ordered_rem]
    cases c.type with
    | INT => exact map_crash_iff.trans ⟨fun h => ⟨rfl, rfl, h⟩, fun h => h.2.2⟩
    | DOUBLE => exact ⟨fun h => (nomatch h), fun h => (nomatch h.2.1)⟩
  | SUB => exact ⟨fun h => absurd h (hordered .SUB (.inl rfl)), fun h => (nomatch h.1)⟩
  | DIV => exact ⟨fun h => absurd h (hordered .DIV (.inr rfl)), fun h => (nomatch h.1)⟩
  | _ => exact ⟨fun h => (nomatch h), fun h => (nomatch h.1)⟩

theorem action_rem (h : (parseTok strtod tok c.val c.type).action = .REM) :
    operator tok = some .REM := by
  cases hstart : startsWithDigit (unsignedOf tok) with
  | true =>
    rw [action_digit hstart] at h
    split at h <;> cases h
  | false =>
    rw [action_other hstart] at h
    cases hoper : operator tok with
    | none =>
      rw [hoper] at h
      cases h
    | some oper =>
      rw [hoper] at h
      exact congrArg some h

theorem step_error_iff : step strtod c tok = .error crash ↔
    operator tok = some .REM ∧ c.type = .INT ∧
      remOf (c.stack.items.tail.headD EOS) (c.stack.items.headD EOS) = .error crash := by
  have hstep : step strtod c tok = .error crash ↔
      execute (parseTok strtod tok c.val c.type).action
        ⟨c.stack, (parseTok strtod tok c.val c.type).val, (parseTok strtod tok c.val c.type).type⟩ =
          .error crash := by
    refine bind_crash_iff.trans ⟨fun h => h.resolve_right ?_, .inl⟩
    rintro ⟨r, -, hr⟩
    cases hr
  rw [hstep, execute_crash_iff]
  constructor
  · rintro ⟨haction, htype, hrem⟩
    have hoper := action_rem haction
    rw [parseTok_operator hoper] at htype
    exact ⟨hoper, htype, hrem⟩
  · rintro ⟨hoper, htype, hrem⟩
    rw [parseTok_operator hoper]
    exact ⟨rfl, htype, hrem⟩

/-- A token crashes exactly if it is a `%` in type `INT` whose operands, zeros where there are none, have
    no remainder. -/
theorem step_crash_iff (strtod : List UInt8 → D × Bool) (c : Calc D) (tok : List UInt8) :
    (∃ crash, step strtod c tok = .error crash) ↔ operator tok = some .REM ∧ c.type = .INT ∧
      ¬ HasRemainder (c.stack.items.tail.headD EOS) (c.stack.items.headD EOS) := by
  rw [not_hasRemainder_iff]
  constructor
  · rintro ⟨crash, hstep⟩
    obtain ⟨hoper, htype, hrem⟩ := step_error_iff.mp hstep
    exact ⟨hoper, htype, crash, hrem⟩
  · rintro ⟨hoper, htype, crash, hrem⟩
    exact ⟨crash, step_error_iff.mpr ⟨hoper, htype, hrem⟩⟩

theorem toInt_crash (h : toInt a = .error crash) : crash ≠ .outOfBounds := by
  rintro rfl
  unfold toInt at h
  split at h
  · split at h <;> cases h
  · cases h

theorem remOf_crash (h : remOf a b = .error crash) : crash ≠ .outOfBounds := by
  unfold remOf at h
  rcases bind_crash_iff.mp h with ha | ⟨m, -, h⟩
  · exact toInt_crash ha
  · rcases bind_crash_iff.mp h with hb | ⟨n, -, h⟩
    · exact toInt_crash hb
    · rcases bind_crash_iff.mp h with hr | ⟨r, -, h⟩
      · rintro rfl
        unfold remF at hr
        split at hr <;> cases hr
      · cases h

theorem step_crash (h : step strtod c tok = .error crash) : crash ≠ .outOfBounds :=
  remOf_crash (step_error_iff.mp h).2.2

end Calculator
end Labs
