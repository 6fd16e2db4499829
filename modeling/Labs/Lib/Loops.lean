import Labs.Lib.Calls
import Labs.Lib.Processes

/-!
# Loops that end

A loop is a turn that ends with a result, goes on with another state, or stops. It comes to an end
when every turn that goes on leaves a smaller state (`loop`). The states that it gets to are those
that `Reaches` has; from each of them the loop does the same as from the first one (`loop_reaches`).
-/

namespace Labs
namespace Lib

variable {σ β : Type} {turn : σ → Except Stop (β ⊕ σ)} {size : σ → Nat}

/-- A turn that goes on leaves a smaller state. -/
def Shrinking (turn : σ → Except Stop (β ⊕ σ)) (size : σ → Nat) : Prop :=
  ∀ s s', turn s = .ok (.inr s') → size s' < size s

def loop (turn : σ → Except Stop (β ⊕ σ)) (size : σ → Nat) (shrinks : Shrinking turn size)
    (s : σ) : Except Stop β :=
  match _h : turn s with
  | .error e => .error e
  | .ok (.inl b) => .ok b
  | .ok (.inr s') => loop turn size shrinks s'
termination_by size s
decreasing_by exact shrinks s s' _h

/-- The next state, if there is one. -/
def nextOf (turn : σ → Except Stop (β ⊕ σ)) (s : σ) (_ : Unit) : Option σ :=
  match turn s with
  | .ok (.inr s') => some s'
  | _ => none

theorem nextOf_eq_some {s s' : σ} : nextOf turn s () = some s' ↔ turn s = .ok (.inr s') := by
  unfold nextOf
  constructor
  · intro h
    split at h
    · rename_i heq
      cases h
      exact heq
    · cases h
  · intro h
    rw [h]

theorem loop_of_inl {shrinks : Shrinking turn size} {s : σ} {b : β}
    (h : turn s = .ok (.inl b)) : loop turn size shrinks s = .ok b := by
  rw [loop]
  split <;> rename_i heq <;> cases heq.symm.trans h
  rfl

theorem loop_of_inr {shrinks : Shrinking turn size} {s s' : σ}
    (h : turn s = .ok (.inr s')) : loop turn size shrinks s = loop turn size shrinks s' := by
  rw [loop]
  split <;> rename_i heq <;> cases heq.symm.trans h
  rfl

theorem loop_reaches {shrinks : Shrinking turn size} {s s' : σ}
    (h : Reaches (nextOf turn) (fun _ _ => True) s s') :
    loop turn size shrinks s = loop turn size shrinks s' := by
  induction h with
  | start => rfl
  | next before ok moves ih => exact ih.trans (loop_of_inr (nextOf_eq_some.mp moves))

theorem loop_of_error {shrinks : Shrinking turn size} {s : σ} {e : Stop}
    (h : turn s = .error e) : loop turn size shrinks s = .error e := by
  rw [loop]
  split <;> rename_i heq <;> cases heq.symm.trans h
  rfl

/-- The first turn, and then the others. -/
theorem reaches_cons {s s' t : σ} (h : turn s = .ok (.inr s'))
    (hreaches : Reaches (nextOf turn) (fun _ _ => True) s' t) :
    Reaches (nextOf turn) (fun _ _ => True) s t := by
  induction hreaches with
  | start => exact .next .start trivial (nextOf_eq_some.mpr h)
  | next before ok moves ih => exact ih.next ok moves

/-- Every loop has a last turn, and ends as that does. -/
theorem loop_last (shrinks : Shrinking turn size) (s : σ) :
    ∃ s', Reaches (nextOf turn) (fun _ _ => True) s s' ∧
      ((∃ e, turn s' = .error e ∧ loop turn size shrinks s = .error e) ∨
        ∃ b, turn s' = .ok (.inl b) ∧ loop turn size shrinks s = .ok b) := by
  induction s using WellFounded.induction (measure size).wf with
  | _ s ih =>
    cases hturn : turn s with
    | error e => exact ⟨s, .start, .inl ⟨e, hturn, loop_of_error hturn⟩⟩
    | ok r =>
      cases r with
      | inl b => exact ⟨s, .start, .inr ⟨b, hturn, loop_of_inl hturn⟩⟩
      | inr s' =>
        rw [loop_of_inr hturn]
        obtain ⟨t, hreaches, hlast⟩ := ih s' (shrinks s s' hturn)
        exact ⟨t, reaches_cons hturn hreaches, hlast⟩

/-- **A loop stops where one of its turns does.** -/
theorem loop_stops {E : Stop → Prop} (shrinks : Shrinking turn size) (s : σ) :
    Stops E (loop turn size shrinks s) ↔
      ∃ s', Reaches (nextOf turn) (fun _ _ => True) s s' ∧ Stops E (turn s') := by
  constructor
  · rintro ⟨e, hE, hloop⟩
    obtain ⟨s', hreaches, ⟨e', hturn, hloop'⟩ | ⟨b, -, hloop'⟩⟩ := loop_last shrinks s
    · cases hloop'.symm.trans hloop
      exact ⟨s', hreaches, e, hE, hturn⟩
    · cases hloop'.symm.trans hloop
  · rintro ⟨s', hreaches, e, hE, hturn⟩
    exact ⟨e, hE, (loop_reaches hreaches).trans (loop_of_error hturn)⟩

theorem loop_hangs (shrinks : Shrinking turn size) (s : σ) :
    Hangs (loop turn size shrinks s) ↔
      ∃ s', Reaches (nextOf turn) (fun _ _ => True) s s' ∧ Hangs (turn s') := by
  simp only [hangs_iff_stops]
  exact loop_stops shrinks s

end Lib
end Labs
