import Mathlib.Logic.Basic

/-!
# Calls that return or stop

A call of a C function returns a value or does not return, for one of the reasons of `Stop`.
`Ends x E Q` says both at once of such a computation: a value it returns satisfies `Q`, and the
only reasons for which it stops are those in `E`. It goes through a sequence of calls by
`Ends.bind`, one call at a time, so a function needs one lemma and its callers cite it.

## What may happen, and what does

`Ends` says which stops are possible, and that is what an invariant needs: it is weaker for a larger
`E`, and nothing is to be known of a call but its lemma. An exact condition needs more, namely that
a stop does happen. That is `Stops`: a sequence stops if its first call does, or if that returns and
the rest stops (`stops_bind`). Where it is clear for all calls but one that they do not, the
condition is that of the one call (`not_stops_bind`, `stops_bind_left`).

Waiting for ever is kept apart from an access that is undefined. Neither of them returns, but a
claim is about one or the other.
-/

namespace Labs
namespace Lib

/-- Why a call does not return. -/
inductive Stop
  | nullDeref
  | useAfterFree
  | outOfBounds
  | hang
deriving DecidableEq, Repr

variable {α β : Type} {E : Stop → Prop}

def Ends (x : Except Stop α) (E : Stop → Prop) (Q : α → Prop) : Prop :=
  match x with
  | .ok a => Q a
  | .error s => E s

namespace Ends

theorem ok {a : α} {Q : α → Prop} (h : Q a) : Ends (.ok a) E Q := h

theorem bind {x : Except Stop α} {f : α → Except Stop β} {Q : α → Prop} {R : β → Prop}
    (hx : Ends x E Q) (hf : ∀ a, Q a → Ends (f a) E R) : Ends (x >>= f) E R := by
  cases x with
  | ok a => exact hf a hx
  | error s => exact hx

/-- What comes behind a call of which only the return matters. -/
theorem skip (x : Except Stop α) {f : α → Except Stop β} {R : β → Prop}
    (hf : ∀ a, Ends (f a) (fun _ => True) R) : Ends (x >>= f) (fun _ => True) R := by
  cases x with
  | ok a => exact hf a
  | error s => exact trivial

/-- What a call is known by when nothing is known of it. -/
theorem self (x : Except Stop α) : Ends x (fun _ => True) fun a => x = .ok a := by
  cases x with
  | ok a => exact rfl
  | error s => exact trivial

theorem mono {x : Except Stop α} {Q R : α → Prop} {E' : Stop → Prop} (hx : Ends x E Q)
    (hE : ∀ s, E s → E' s) (hQ : ∀ a, Q a → R a) : Ends x E' R := by
  cases x with
  | ok a => exact hQ a hx
  | error s => exact hE s hx

theorem of_eq_ok {x : Except Stop α} {a : α} {Q : α → Prop} (hx : Ends x E Q)
    (h : x = .ok a) : Q a := by
  subst h
  exact hx

end Ends

theorem bind_of_ok {x : Except Stop α} {a : α} (h : x = .ok a) (f : α → Except Stop β) :
    (x >>= f) = f a := by
  subst h
  rfl

theorem bind_of_error {x : Except Stop α} {s : Stop} (h : x = .error s)
    (f : α → Except Stop β) : (x >>= f) = .error s := by
  subst h
  rfl

/-- A sequence of calls that returns has returned from each of them. -/
theorem of_bind_eq_ok {x : Except Stop α} {f : α → Except Stop β} {b : β}
    (h : (x >>= f) = .ok b) : ∃ a, x = .ok a ∧ f a = .ok b := by
  cases x with
  | ok a => exact ⟨a, rfl, h⟩
  | error s => exact absurd h (by simp [bind, Except.bind])

/-! ## Calls that stop -/

/-- The call stops for a reason in `E`. -/
def Stops (E : Stop → Prop) (x : Except Stop α) : Prop := ∃ s, E s ∧ x = .error s

theorem Stops.of_ok {a : α} (h : Stops E (.ok a)) : False := by
  obtain ⟨s, -, hs⟩ := h
  cases hs

/-- A sequence of calls stops where one of them does. -/
theorem stops_bind {x : Except Stop α} {f : α → Except Stop β} :
    Stops E (x >>= f) ↔ Stops E x ∨ ∃ a, x = .ok a ∧ Stops E (f a) := by
  cases x with
  | ok a =>
    refine ⟨fun h => .inr ⟨a, rfl, h⟩, ?_⟩
    rintro (h | ⟨b, hb, h⟩)
    · exact h.of_ok.elim
    · cases hb
      exact h
  | error s =>
    refine ⟨fun ⟨s', hE, hs⟩ => .inl ⟨s', hE, ?_⟩, ?_⟩
    · cases hs
      rfl
    · rintro (⟨s', hE, hs⟩ | ⟨b, hb, -⟩)
      · cases hs
        exact ⟨s, hE, rfl⟩
      · cases hb

theorem not_stops_bind {x : Except Stop α} {f : α → Except Stop β} (hx : ¬ Stops E x)
    (hf : ∀ a, x = .ok a → ¬ Stops E (f a)) : ¬ Stops E (x >>= f) := by
  intro h
  rcases stops_bind.mp h with h | ⟨a, ha, h⟩
  · exact hx h
  · exact hf a ha h

/-- … the first one, if the others do not. -/
theorem stops_bind_left {x : Except Stop α} {f : α → Except Stop β}
    (hf : ∀ a, ¬ Stops E (f a)) : Stops E (x >>= f) ↔ Stops E x :=
  stops_bind.trans ⟨fun h => h.resolve_right fun ⟨a, _, h⟩ => hf a h, .inl⟩

theorem Ends.not_stops {E' : Stop → Prop} {x : Except Stop α} {Q : α → Prop} (h : Ends x E Q)
    (hE : ∀ s, E s → ¬ E' s) : ¬ Stops E' x := by
  rintro ⟨s, hs, rfl⟩
  exact hE s h hs

/-! The two ways to stop: for ever, and at an access that is undefined. -/

def Hangs (x : Except Stop α) : Prop := x = .error .hang

def Faults (x : Except Stop α) : Prop := Stops (· ≠ .hang) x

theorem hangs_iff_stops {x : Except Stop α} : Hangs x ↔ Stops (· = .hang) x := by
  constructor
  · exact fun h => ⟨.hang, rfl, h⟩
  · rintro ⟨s, rfl, h⟩
    exact h

theorem Hangs.of_ok {a : α} (h : Hangs (.ok a)) : False := nomatch h

theorem hangs_bind {x : Except Stop α} {f : α → Except Stop β} :
    Hangs (x >>= f) ↔ Hangs x ∨ ∃ a, x = .ok a ∧ Hangs (f a) := by
  simp only [hangs_iff_stops]
  exact stops_bind

theorem not_hangs_bind {x : Except Stop α} {f : α → Except Stop β} (hx : ¬ Hangs x)
    (hf : ∀ a, x = .ok a → ¬ Hangs (f a)) : ¬ Hangs (x >>= f) := by
  simp only [hangs_iff_stops] at *
  exact not_stops_bind hx hf

theorem hangs_bind_left {x : Except Stop α} {f : α → Except Stop β} (hf : ∀ a, ¬ Hangs (f a)) :
    Hangs (x >>= f) ↔ Hangs x := by
  simp only [hangs_iff_stops] at *
  exact stops_bind_left hf

theorem Ends.not_faults {x : Except Stop α} {Q : α → Prop} (h : Ends x (· = .hang) Q) :
    ¬ Faults x :=
  h.not_stops fun _ hs hne => hne hs

/-- A call returns if it neither hangs nor faults. -/
theorem ok_iff_not_stops {x : Except Stop α} : (∃ a, x = .ok a) ↔ ¬ Hangs x ∧ ¬ Faults x := by
  constructor
  · rintro ⟨a, rfl⟩
    exact ⟨Hangs.of_ok, Stops.of_ok⟩
  · rintro ⟨hhangs, hfaults⟩
    cases x with
    | ok a => exact ⟨a, rfl⟩
    | error s => exact absurd ⟨s, fun hs => hhangs (hs ▸ rfl), rfl⟩ hfaults

theorem Hangs.not_faults {x : Except Stop α} (h : Hangs x) : ¬ Faults x := by
  rintro ⟨s, hne, hs⟩
  cases h.symm.trans hs
  exact hne rfl

end Lib
end Labs
