import Mathlib.Logic.Basic

/-!
# Loops that may not end

A turn ends with a result or goes on with another state. `runFor` takes a number of turns, and
`ComesTo` says that some number of them is enough. A loop comes to what it comes to after a turn
(`comesTo_of_inr`), and one that goes on with the state it has comes to nothing
(`not_comesTo_of_fixed`).
-/

namespace Labs
namespace Lib

variable {σ β : Type} {turn : σ → β ⊕ σ} {s s' : σ} {b c : β}

/-- The result after this many turns at most. -/
def runFor (turn : σ → β ⊕ σ) : Nat → σ → Option β
  | 0, _ => none
  | n + 1, s =>
    match turn s with
    | .inl b => some b
    | .inr s' => runFor turn n s'

def ComesTo (turn : σ → β ⊕ σ) (s : σ) (b : β) : Prop := ∃ n, runFor turn n s = some b

theorem runFor_of_inl (h : turn s = .inl b) (n : Nat) : runFor turn (n + 1) s = some b := by
  rw [runFor, h]

theorem runFor_of_inr (h : turn s = .inr s') (n : Nat) :
    runFor turn (n + 1) s = runFor turn n s' := by
  rw [runFor, h]

theorem comesTo_of_inl (h : turn s = .inl b) : ComesTo turn s c ↔ c = b := by
  constructor
  · intro hcomes
    obtain ⟨n, hn⟩ := hcomes
    cases n with
    | zero => cases hn
    | succ n =>
      rw [runFor_of_inl h] at hn
      cases hn
      rfl
  · intro hc
    exact ⟨1, by rw [runFor_of_inl h, hc]⟩

theorem comesTo_of_inr (h : turn s = .inr s') : ComesTo turn s c ↔ ComesTo turn s' c := by
  constructor
  · intro hcomes
    obtain ⟨n, hn⟩ := hcomes
    cases n with
    | zero => cases hn
    | succ n => exact ⟨n, by rw [← runFor_of_inr h, hn]⟩
  · intro hcomes
    obtain ⟨n, hn⟩ := hcomes
    exact ⟨n + 1, by rw [runFor_of_inr h, hn]⟩

/-- The same turn is taken for ever. -/
theorem not_comesTo_of_fixed (h : turn s = .inr s) : ¬ ComesTo turn s c := by
  intro hcomes
  obtain ⟨n, hn⟩ := hcomes
  induction n with
  | zero => cases hn
  | succ n ih =>
    rw [runFor_of_inr h] at hn
    exact ih hn

end Lib
end Labs
