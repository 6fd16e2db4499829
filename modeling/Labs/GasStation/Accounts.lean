import Labs.GasStation.Program
import Mathlib.Algebra.BigOperators.Fin

/-!
# Fuel and cars

The mutex protects all there is: the fuel, the cars, and who waits. While it is free the fuel that
was refilled is in the cars and in the storage (`Books`), and nobody waits for what is already there
(`Rest`):

* the refiller waits only while the storage is full, and only when there is a car to be filled;
* with the storage full and a car to be filled, there is such a car whose customer does not wait.

A customer that fills its car has counted the fuel twice between its two stores. That is the only
place where the books are not balanced.
-/

namespace Labs
namespace GasStation

open Lib

variable {c : Config} {m m' : Shared c} {op : SemOp Unit} {e : Event c}

/-! ## 1. The mutex -/

def RefillerPlace.inside : RefillerPlace → Prop
  | .scan _ | .testFuel _ | .condWait _ | .setFuel | .notify | .unlock | .leaveNotify
  | .leaveUnlock => True
  | .start | .lock | .asleep _ | .returned => False

def CustomerPlace.inside : CustomerPlace → Prop
  | .testFuel | .condWait | .loadCar | .loadFuel _ | .storeCar _ _ | .clearFuel | .testCar
  | .signalFull _ | .unlock _ => True
  | .start | .lock | .asleep | .returned => False

def inside : (t : Thread c) → Place t → Prop
  | .main, _ => False
  | .refiller, pc => RefillerPlace.inside pc
  | .customer _, pc => CustomerPlace.inside pc

def held : (t : Thread c) → Place t → Set Unit := heldInside inside

theorem isRefillNeeded_inside (m : Shared c) (i : Nat) : (isRefillNeeded m i).inside := by
  unfold isRefillNeeded
  split
  · split <;> trivial
  · trivial

theorem refill_passes {pc pc' : RefillerPlace} (h : refill c pc m e = some (pc', m', op)) :
    Passes (inside (c := c)) .refiller pc pc' op := by
  cases pc with
  | start =>
    cases e <;> try cases h
    simp only [refill] at h
    split at h <;> cases h
    exact .inl ⟨rfl, Iff.rfl⟩
  | lock =>
    cases e <;> cases h
    exact .inr (.inl ⟨rfl, id, trivial⟩)
  | scan i =>
    cases e <;> cases h
    exact .inl ⟨rfl, fun _ => isRefillNeeded_inside m i, fun _ => trivial⟩
  | testFuel doRefill =>
    cases e <;> try cases h
    simp only [refill] at h
    split at h
    · cases h
      exact .inl ⟨rfl, Iff.rfl⟩
    · split at h <;> cases h
      · refine .inl ⟨rfl, fun _ => ?_, fun _ => trivial⟩
        split <;> trivial
      · exact .inl ⟨rfl, Iff.rfl⟩
  | condWait doRefill | unlock | leaveUnlock =>
    cases e <;> cases h
    exact .inr (.inr ⟨rfl, trivial, id⟩)
  | asleep doRefill =>
    cases e <;> try cases h
    · simp only [refill] at h
      split at h <;> cases h
      exact .inr (.inl ⟨rfl, id, trivial⟩)
    · exact .inl ⟨rfl, Iff.rfl⟩
  | setFuel =>
    cases e <;> cases h
    exact .inl ⟨rfl, Iff.rfl⟩
  | notify | leaveNotify =>
    obtain ⟨m₁, -, hm₁⟩ := Option.map_eq_some_iff.mp h
    cases hm₁
    exact .inl ⟨rfl, Iff.rfl⟩
  | returned => cases e <;> cases h

theorem purchase_passes {i : Customer c} {pc pc' : CustomerPlace}
    (h : purchase i pc m e = some (pc', m', op)) : Passes inside (.customer i) pc pc' op := by
  cases pc with
  | start =>
    cases e <;> try cases h
    simp only [purchase] at h
    split at h <;> cases h
    exact .inl ⟨rfl, Iff.rfl⟩
  | lock =>
    cases e <;> cases h
    exact .inr (.inl ⟨rfl, id, trivial⟩)
  | testFuel =>
    cases e <;> cases h
    refine .inl ⟨rfl, fun _ => ?_, fun _ => trivial⟩
    split <;> trivial
  | condWait =>
    cases e <;> cases h
    exact .inr (.inr ⟨rfl, trivial, id⟩)
  | asleep =>
    cases e <;> try cases h
    · simp only [purchase] at h
      split at h <;> cases h
      exact .inr (.inl ⟨rfl, id, trivial⟩)
    · exact .inl ⟨rfl, Iff.rfl⟩
  | unlock filled =>
    cases filled <;> cases e <;> cases h <;> exact .inr (.inr ⟨rfl, trivial, id⟩)
  | returned => cases e <;> cases h
  | _ =>
    cases e <;> cases h
    exact .inl ⟨rfl, Iff.rfl⟩

theorem mainThread_passes {pc pc' : MainPlace} (h : mainThread c pc m e = some (pc', m', op)) :
    Passes (inside (c := c)) .main pc pc' op := by
  cases pc with
  | create k =>
    cases e <;> cases h
    exact .inl ⟨rfl, Iff.rfl⟩
  | join k =>
    cases e <;> try cases h
    simp only [mainThread] at h
    split at h <;> cases h
    exact .inl ⟨rfl, Iff.rfl⟩
  | returned => cases e <;> cases h

/-- Every choice of the world. -/
def Any (t : Thread c) (_ : Place t) (_ : Event c) : Prop := True

theorem program_passes {t : Thread c} {pc pc' : Place t}
    (h : program c t pc m e = some (pc', m', op)) : Passes inside t pc pc' op := by
  cases t with
  | main => exact mainThread_passes h
  | refiller => exact refill_passes h
  | customer i => exact purchase_passes h

theorem program_keeps (c : Config) : KeepsWhen (program c) held Any :=
  fun _ _ _ _ _ _ _ _ h => (program_passes h).keeps

theorem program_oneAtATime (c : Config) : OneAtATime (program c) held :=
  oneAtATime_of_passes fun _ _ _ _ _ _ _ => program_passes

/-! ## 2. What the mutex protects -/

/-- Who waits has something to wait for, and no car is filled beyond its tank and one storage. -/
structure Sane (m : Shared c) : Prop where
  cars : ∀ i, 0 ≤ m.cars i ∧ m.cars i < TANK_CAPACITY + GAS_STORAGE
  thirsty : ∀ i, m.empty i = .waiting → m.cars i < TANK_CAPACITY

/-- What was refilled is in the storage and in the cars. -/
structure Books (m : Shared c) : Prop extends Sane m where
  fuel : m.fuel = 0 ∨ m.fuel = 35
  balance : ∑ i, m.cars i + m.fuel = 35 * m.refills

/-- What holds while the mutex is free. -/
structure Rest (m : Shared c) : Prop extends Books m where
  /-- The refiller waits only while the storage is full. -/
  stored : m.full = .waiting → m.fuel = 35
  /-- It came to wait because of a car that has not been filled since. -/
  needed : m.full ≠ .out → m.fuel = 35 → ∃ i, m.cars i < TANK_CAPACITY
  /-- The fuel is for somebody who does not wait. -/
  wanted : m.fuel = 35 → (∃ i, m.cars i < TANK_CAPACITY) →
    ∃ i, m.cars i < TANK_CAPACITY ∧ m.empty i ≠ .waiting

/-- The storage and the cars are as they were, and nobody has begun to wait. -/
structure Calm (m m' : Shared c) : Prop where
  fuel : m'.fuel = m.fuel
  cars : m'.cars = m.cars
  refills : m'.refills = m.refills
  empty : ∀ i, m'.empty i = .waiting → m.empty i = .waiting
  full : m'.full = .waiting → m.full = .waiting
  full_out : m.full = .out → m'.full = .out

theorem Calm.refl (m : Shared c) : Calm m m :=
  ⟨rfl, rfl, rfl, fun _ => id, id, id⟩

theorem Sane.calm (h : Sane m) (hc : Calm m m') : Sane m' := by
  refine ⟨fun i => ?_, fun i hi => ?_⟩
  · rw [hc.cars]
    exact h.cars i
  · rw [hc.cars]
    exact h.thirsty i (hc.empty i hi)

theorem Books.calm (h : Books m) (hc : Calm m m') : Books m' := by
  refine ⟨h.toSane.calm hc, ?_, ?_⟩
  · rw [hc.fuel]
    exact h.fuel
  · rw [hc.cars, hc.fuel, hc.refills]
    exact h.balance

theorem Rest.calm (h : Rest m) (hc : Calm m m') : Rest m' := by
  refine ⟨h.toBooks.calm hc, fun hf => ?_, fun hf hfuel => ?_, fun hfuel hcar => ?_⟩
  · rw [hc.fuel]
    exact h.stored (hc.full hf)
  · rw [hc.cars]
    rw [hc.fuel] at hfuel
    exact h.needed (fun hout => hf (hc.full_out hout)) hfuel
  · rw [hc.fuel] at hfuel
    rw [hc.cars] at hcar ⊢
    obtain ⟨i, hi, hw⟩ := h.wanted hfuel hcar
    exact ⟨i, hi, fun hw' => hw (hc.empty i hw')⟩

theorem wake_ne_waiting (w : Wait) : w.wake ≠ .waiting := by
  cases w <;> simp [Wait.wake]

theorem wake_eq_out {w : Wait} : w.wake = .out ↔ w = .out := by
  cases w <;> simp [Wait.wake]

/-- One customer stops waiting, or has stopped. -/
theorem Calm.setEmpty {i : Customer c} {w : Wait} (hw : w ≠ .waiting) : Calm m (m.setEmpty i w) := by
  refine ⟨rfl, rfl, rfl, fun i' hi' => ?_, id, id⟩
  change Function.update m.empty i w i' = .waiting at hi'
  by_cases hi : i' = i
  · subst hi
    rw [Function.update_self] at hi'
    exact absurd hi' hw
  · rwa [Function.update_of_ne hi] at hi'

theorem Calm.setFull {w : Wait} (hw : w ≠ .waiting) (hout : m.full = .out → w = .out) :
    Calm m (m.setFull w) :=
  ⟨rfl, rfl, rfl, fun _ => id, fun h => absurd h hw, hout⟩

theorem Calm.broadcast (m : Shared c) : Calm m m.broadcast :=
  ⟨rfl, rfl, rfl, fun _ h => absurd h (wake_ne_waiting _), id, id⟩

theorem calm_signalEmpty (h : signalEmpty m e = some m') : Calm m m' := by
  cases e with
  | ok =>
    simp only [signalEmpty] at h
    split at h <;> cases h
    exact .refl m
  | wake i =>
    simp only [signalEmpty] at h
    split at h <;> cases h
    exact .setEmpty (by simp)
  | spurious => cases h

theorem calm_notifyEmpty {v : Version} (h : notifyEmpty v m e = some m') : Calm m m' := by
  cases v with
  | signal => exact calm_signalEmpty h
  | broadcast =>
    cases e with
    | ok =>
      cases h
      exact .broadcast m
    | _ => cases h

/-- After a notification somebody who has a car to fill does not wait, if there is one. -/
theorem wanted_notifyEmpty {v : Version} (hs : Sane m) (h : notifyEmpty v m e = some m')
    (hcar : ∃ i, m'.cars i < TANK_CAPACITY) :
    ∃ i, m'.cars i < TANK_CAPACITY ∧ m'.empty i ≠ .waiting := by
  obtain ⟨i, hi⟩ := hcar
  cases v with
  | broadcast =>
    cases e with
    | ok =>
      cases h
      exact ⟨i, hi, wake_ne_waiting _⟩
    | _ => cases h
  | signal =>
    cases e with
    | ok =>
      simp only [notifyEmpty, signalEmpty] at h
      split at h <;> cases h
      rename_i hnobody
      exact ⟨i, hi, hnobody i⟩
    | wake j =>
      simp only [notifyEmpty, signalEmpty] at h
      split at h <;> cases h
      rename_i hj
      refine ⟨j, hs.thirsty j hj, ?_⟩
      show Function.update m.empty j .woken j ≠ .waiting
      rw [Function.update_self]
      simp
    | spurious => cases h

end GasStation
end Labs
