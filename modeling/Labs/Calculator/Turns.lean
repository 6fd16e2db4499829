import Labs.Calculator.Grammar

/-!
# One token after the other

The loop over the tokens goes on behind a token that ends in `next`, and stops at any other. So what it
makes of a line is known from the tokens that it comes to.
-/

namespace Labs
namespace Calculator

open Lib

variable {D : Type} [Arithmetic D] {strtod : List UInt8 → D × Bool} {c c' : Calc D} {tok : List UInt8}
  {toks more : List (List UInt8)} {said : List Said} {flow : Flow} {crash : Crash}

theorem of_bind_ok {α β : Type} {x : Except Crash α} {f : α → Except Crash β} {b : β}
    (h : (x >>= f) = .ok b) : ∃ a, x = .ok a ∧ f a = .ok b := by
  cases x with
  | ok a => exact ⟨a, rfl, h⟩
  | error crash => cases h

/-- A sequence of calls crashes where one of them does. -/
theorem bind_crash_iff {α β : Type} {x : Except Crash α} {f : α → Except Crash β} :
    (x >>= f) = .error crash ↔ x = .error crash ∨ ∃ a, x = .ok a ∧ f a = .error crash := by
  cases x with
  | ok a =>
    refine ⟨fun h => .inr ⟨a, rfl, h⟩, ?_⟩
    rintro (h | ⟨b, hb, h⟩)
    · cases h
    · cases hb
      exact h
  | error crash' =>
    refine ⟨fun h => .inl (Except.error.inj h ▸ rfl), ?_⟩
    rintro (h | ⟨b, hb, -⟩)
    · cases h
      rfl
    · cases hb

theorem map_crash_iff {α β : Type} {x : Except Crash α} {f : α → β} :
    x.map f = .error crash ↔ x = .error crash := by
  cases x with
  | ok a => exact ⟨fun h => (nomatch h), fun h => (nomatch h)⟩
  | error crash' => exact ⟨fun h => Except.error.inj h ▸ rfl, fun h => Except.error.inj h ▸ rfl⟩

/-! ## 1. The loop -/

/-- What the rest of the line adds to what has been said. -/
def behind (said : List Said) (r : Flow × Calc D × List Said) : Flow × Calc D × List Said :=
  (r.1, r.2.1, said ++ r.2.2)

theorem tokenLoop_cons (h : step strtod c tok = .ok (.next, c', said)) :
    tokenLoop strtod c (tok :: toks) = (tokenLoop strtod c' toks).map (behind said) := by
  rw [tokenLoop, h]
  show (tokenLoop strtod c' toks >>= fun r => pure (r.1, r.2.1, said ++ r.2.2)) = _
  cases tokenLoop strtod c' toks with
  | error crash => rfl
  | ok r => rfl

/-- A loop that comes to the end has done its first token. -/
theorem of_tokenLoop_next (h : tokenLoop strtod c (tok :: toks) = .ok (.next, c', said)) :
    ∃ before now later, step strtod c tok = .ok (.next, before, now) ∧
      tokenLoop strtod before toks = .ok (.next, c', later) ∧ said = now ++ later := by
  cases hstep : step strtod c tok with
  | error crash =>
    rw [tokenLoop_crash hstep] at h
    cases h
  | ok r =>
    obtain ⟨flow, before, now⟩ := r
    cases flow with
    | next =>
      rw [tokenLoop_cons hstep] at h
      cases hrest : tokenLoop strtod before toks with
      | error crash =>
        rw [hrest] at h
        cases h
      | ok r =>
        obtain ⟨flow, last, later⟩ := r
        rw [hrest] at h
        cases h
        exact ⟨before, now, later, rfl, hrest, rfl⟩
    | tryAgain =>
      rw [tokenLoop_stop hstep (by decide)] at h
      cases h
    | disgrace =>
      rw [tokenLoop_stop hstep (by decide)] at h
      cases h

/-- The rest of the line is done from where its beginning leaves the calculator. -/
theorem tokenLoop_append (h : tokenLoop strtod c toks = .ok (.next, c', said)) :
    tokenLoop strtod c (toks ++ more) = (tokenLoop strtod c' more).map (behind said) := by
  induction toks generalizing c said with
  | nil =>
    cases h
    rw [List.nil_append]
    cases tokenLoop strtod c' more with
    | error crash => rfl
    | ok r => rfl
  | cons tok toks ih =>
    obtain ⟨before, now, later, hstep, hrest, rfl⟩ := of_tokenLoop_next h
    rw [List.cons_append, tokenLoop_cons hstep, ih hrest]
    cases tokenLoop strtod c' more with
    | error crash => rfl
    | ok r =>
      show Except.ok (behind now (behind later r)) = Except.ok (behind (now ++ later) r)
      rw [behind, behind, behind, List.append_assoc]

/-! ## 2. The line -/

/-- What a line makes of the loop over its tokens. -/
def lineEnd (r : Flow × Calc D × List Said) : Option (Calc D) × List Said :=
  match r with
  | (.next, c, said) => (some (finishLine c).1, said ++ (finishLine c).2)
  | (.tryAgain, c, said) => (some c, said)
  | (.disgrace, _, said) => (none, said)

theorem line_eq (strtod : List UInt8 → D × Bool) (c : Calc D) (buf : List UInt8) :
    line strtod c buf = (tokenLoop strtod c (tokens SPACE (cstr buf)).1).map lineEnd := by
  rw [line]
  cases tokenLoop strtod c (tokens SPACE (cstr buf)).1 with
  | error crash => rfl
  | ok r =>
    obtain ⟨flow, c', said⟩ := r
    cases flow <;> rfl

theorem getLine_crash {buf inp : List UInt8} (h : getLine buf inp = .error crash) :
    crash = .outOfBounds := by
  unfold getLine at h
  rcases hscan : scanLine (buf.length - 1) inp with ⟨body, stop, rest'⟩
  rw [hscan] at h
  cases stop with
  | none =>
    have h : (if _ then Except.ok _ else .error Crash.outOfBounds) = _ := h
    split at h
    · cases h
    · cases h
      rfl
  | some b =>
    have h : (if b = EOF then Except.ok _ else Except.ok _) = Except.error crash := h
    split at h <;> cases h

end Calculator
end Labs
