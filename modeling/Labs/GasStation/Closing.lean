import Labs.GasStation.Wakeups

/-!
# The gas station closes

What is left to do is counted in refills and purchases, and, between two of those, in places: a
thread that goes round its loop comes to a refill, to a purchase, or goes to sleep (`left`). Only a
notification gets a thread up again, and it counts as much as those that it wakes. A broadcast wakes
them all.

So a run is not longer than what is left at its start, and no more than a few steps longer for every
spurious wake-up. Where a run cannot go on all threads have returned, and every car has been filled
three times. The refiller may have come back once more: it does not look at the cars again when it
is woken.

## The measure

A measure for all threads at once has to pay for two things. A refill or a purchase sends several
threads round their loops again; it can happen only so often, so it is worth more than all of these
rounds together (`tradeWorth`). A notification gets others up; what they have to do then is added to
their counts when they wake, so it is part of the place from which they are notified
(`RefillerPlace.calls`, `CustomerPlace.rings`). The numbers are those that make `left_lt` true, for
any number of cars, and have no other meaning.

The bound on the length of a run and the state in which it ends are proved separately. The first
needs the invariant only where a place promises something about the memory. The second is about a
state in which nobody can move: all threads have returned there (`Returned`), so all cars are full,
and `Whole` turns *full* into *three times*, since nothing is put into a car but 35 at a time.

No fairness is assumed, and spurious wake-ups are allowed; they lengthen a run by `wakeUpCost` each.
-/

namespace Labs
namespace GasStation

open Lib

variable {c : Config} {m m' : Shared c} {op : SemOp Unit} {e : Event c}

/-! ## 1. What is left to do -/

/-- How often the car is still going to be filled. -/
def purchasesLeft (car : Int) : Nat := ((TANK_CAPACITY - car).toNat + 34) / 35

theorem purchasesLeft_fill {car : Int} (h : car < TANK_CAPACITY) :
    purchasesLeft (car + 35) + 1 = purchasesLeft car := by
  simp only [purchasesLeft]
  omega

/-- A purchase counts twice: there is a refill between it and the next one. -/
def tradeLeft (m : Shared c) : Nat :=
  2 * ∑ i, purchasesLeft (m.cars i) + if m.fuel = 35 then 0 else 1

/-- What a refill or a purchase is worth, in steps. -/
def tradeWorth (n : Nat) : Nat := 12 + 9 * n

/-- The steps of a customer up to where it buys or sleeps, among `n` customers. -/
def CustomerPlace.left (n : Nat) : CustomerPlace → Wait → Nat
  | .start, _ | .unlock _, _ => 6
  | .lock, _ => 5
  | .testFuel, _ => 4
  | .condWait, _ | .loadFuel _, _ => 2
  | .asleep, .waiting | .storeCar _ _, _ => 1
  | .asleep, _ => 5
  | .loadCar, _ => 3
  -- the car is full and the storage is not yet empty
  | .clearFuel, _ => tradeWorth n + (12 + 4 * n)
  | .testCar, _ => 11 + 4 * n
  | .signalFull _, _ => 10 + 4 * n
  | .returned, _ => 0

/-- The steps of the refiller up to where it refills, sleeps or leaves. -/
def RefillerPlace.left (n : Nat) : RefillerPlace → Wait → Nat
  | .start, _ | .unlock, _ => 6 + 5 * n
  | .lock, _ => 5 + 5 * n
  | .scan k, _ => 4 + 4 * n + (n - k)
  | .testFuel _, _ => 3 + 4 * n
  | .condWait _, _ => 2
  | .asleep _, .waiting | .setFuel, _ | .leaveUnlock, _ => 1
  | .asleep _, _ => 4 + 4 * n
  | .notify, _ => 7 + 9 * n
  | .leaveNotify, _ => 2 + 4 * n
  | .returned, _ => 0

def MainPlace.left (n : Nat) : MainPlace → Nat
  | .create k => (n + 1 - k) + (n + 3)
  | .join k => (n + 1 - k) + 1
  | .returned => 0

def left (s : State c) : Nat :=
  MainPlace.left c.cars (s.pc .main) + RefillerPlace.left c.cars (s.pc .refiller) s.mem.full +
    ∑ i, CustomerPlace.left c.cars (s.pc (.customer i)) (s.mem.empty i) +
    tradeWorth c.cars * tradeLeft s.mem

def Event.isSpurious : Event c → Bool
  | .spurious => true
  | _ => false

/-- What a spurious wake-up puts back, among `n` customers. -/
def wakeUpCost (n : Nat) : Nat := 5 + 4 * n

/-! ## 2. Wake-ups -/

theorem CustomerPlace.left_wake (n : Nat) (pc : CustomerPlace) (w : Wait) :
    pc.left n w.wake ≤ pc.left n w + 4 := by
  cases pc <;> cases w <;> simp [CustomerPlace.left, Wait.wake]

theorem RefillerPlace.left_wake (n : Nat) (pc : RefillerPlace) (w : Wait) :
    pc.left n w.wake ≤ pc.left n w + (3 + 4 * n) := by
  cases pc <;> cases w <;> simp [RefillerPlace.left, Wait.wake]
  omega

theorem signalEmpty_empty (h : signalEmpty m e = some m') (i : Customer c) :
    m'.empty i = m.empty i ∨ m'.empty i = (m.empty i).wake := by
  cases e with
  | ok =>
    simp only [signalEmpty] at h
    split at h <;> cases h
    exact .inl rfl
  | wake j =>
    simp only [signalEmpty] at h
    split at h <;> cases h
    rename_i hj
    show Function.update m.empty j .woken i = _ ∨ Function.update m.empty j .woken i = _
    by_cases hi : i = j
    · subst hi
      rw [Function.update_self, hj]
      exact .inr rfl
    · rw [Function.update_of_ne hi]
      exact .inl rfl
  | spurious => cases h

theorem notifyEmpty_empty {v : Version} (h : notifyEmpty v m e = some m') (i : Customer c) :
    m'.empty i = m.empty i ∨ m'.empty i = (m.empty i).wake := by
  cases v with
  | signal => exact signalEmpty_empty h i
  | broadcast =>
    cases e with
    | ok =>
      cases h
      exact .inr rfl
    | _ => cases h

/-- What the refiller's notification from this place adds to a customer. -/
def RefillerPlace.calls : RefillerPlace → Nat
  | .notify | .leaveNotify => 4
  | _ => 0

/-- What the signal of a customer from this place adds to the refiller. -/
def CustomerPlace.rings (n : Nat) : CustomerPlace → Nat
  | .signalFull _ => 3 + 4 * n
  | _ => 0

theorem CustomerPlace.left_of_woken (n : Nat) (pc : CustomerPlace) {w w' : Wait}
    (h : w' = w ∨ w' = w.wake) : pc.left n w' ≤ pc.left n w + 4 := by
  rcases h with rfl | rfl
  · exact Nat.le_add_right _ _
  · exact pc.left_wake n w

theorem tradeLeft_calm (h : Calm m m') : tradeLeft m' = tradeLeft m := by
  simp only [tradeLeft, h.cars, h.fuel]

theorem setFull_full (m : Shared c) (w : Wait) : (m.setFull w).full = w := rfl

theorem tradeLeft_setFull (m : Shared c) (w : Wait) : tradeLeft (m.setFull w) = tradeLeft m := rfl

theorem tradeLeft_setEmpty (m : Shared c) (i : Customer c) (w : Wait) :
    tradeLeft (m.setEmpty i w) = tradeLeft m := rfl

/-! ## 3. Every step is one less to do -/

def costOf (n : Nat) (e : Event c) : Nat := if e.isSpurious then wakeUpCost n else 0

theorem mainThread_left {pc pc' : MainPlace} (h : mainThread c pc m e = some (pc', m', op)) :
    pc'.left c.cars < pc.left c.cars := by
  cases pc with
  | create k =>
    cases e <;> cases h
    split <;> simp only [MainPlace.left] <;> omega
  | join k =>
    cases e <;> try cases h
    simp only [mainThread] at h
    split at h <;> cases h
    split <;> simp only [MainPlace.left] <;> omega
  | returned => cases e <;> cases h

theorem isRefillNeeded_left (m : Shared c) (k : Nat) :
    (isRefillNeeded m k).left c.cars m.full < (RefillerPlace.scan k).left c.cars m.full := by
  unfold isRefillNeeded
  split
  · split <;> simp only [RefillerPlace.left] <;> omega
  · simp only [RefillerPlace.left]
    omega

/-- The refill makes up for the way back to the next one. -/
theorem tradeLeft_refill (h : m.fuel = 0) : tradeLeft m.refill + 1 = tradeLeft m := by
  simp [tradeLeft, Shared.refill, h]

theorem refill_left {pc pc' : RefillerPlace} (hk : pc.Knows m)
    (h : refill c pc m e = some (pc', m', op)) :
    (∀ i, ∀ p : CustomerPlace, p.left c.cars (m'.empty i) ≤ p.left c.cars (m.empty i) + pc.calls) ∧
      pc'.left c.cars m'.full + c.cars * pc.calls + tradeWorth c.cars * tradeLeft m' <
        pc.left c.cars m.full + tradeWorth c.cars * tradeLeft m + costOf c.cars e := by
  cases pc with
  | start =>
    cases e <;> try cases h
    simp only [refill] at h
    split at h <;> cases h
    refine ⟨fun _ _ => le_refl _, ?_⟩
    simp only [RefillerPlace.left, RefillerPlace.calls]
    omega
  | lock =>
    cases e <;> cases h
    refine ⟨fun _ _ => le_refl _, ?_⟩
    simp only [RefillerPlace.left, RefillerPlace.calls]
    omega
  | scan k =>
    cases e <;> cases h
    have hless := isRefillNeeded_left m k
    refine ⟨fun _ _ => le_refl _, ?_⟩
    simp only [RefillerPlace.calls]
    omega
  | testFuel doRefill =>
    cases e <;> try cases h
    simp only [refill] at h
    split at h
    · cases h
      refine ⟨fun _ _ => le_refl _, ?_⟩
      simp only [RefillerPlace.left, RefillerPlace.calls]
      omega
    · split at h <;> cases h
      · refine ⟨fun _ _ => le_refl _, ?_⟩
        split <;> simp only [RefillerPlace.left, RefillerPlace.calls] <;> omega
      · refine ⟨fun _ _ => le_refl _, ?_⟩
        simp only [RefillerPlace.left, RefillerPlace.calls]
        omega
  | condWait doRefill =>
    cases e <;> cases h
    refine ⟨fun _ _ => le_refl _, ?_⟩
    simp only [tradeLeft_setFull, setFull_full, RefillerPlace.left, RefillerPlace.calls]
    omega
  | asleep doRefill =>
    cases e <;> try cases h
    · simp only [refill] at h
      split at h <;> cases h
      rename_i hawake
      refine ⟨fun _ _ => le_refl _, ?_⟩
      simp only [tradeLeft_setFull, RefillerPlace.calls]
      cases hfull : m.full with
      | waiting => exact absurd hfull hawake
      | out | woken =>
        simp only [RefillerPlace.left]
        omega
    · have hwake := RefillerPlace.left_wake c.cars (.asleep doRefill) m.full
      refine ⟨fun _ _ => le_refl _, ?_⟩
      simp only [tradeLeft_setFull, setFull_full, RefillerPlace.calls, costOf, Event.isSpurious,
        wakeUpCost, if_true]
      omega
  | setFuel =>
    cases e <;> cases h
    have htrade := tradeLeft_refill hk.2.2
    refine ⟨fun _ _ => le_refl _, ?_⟩
    rw [← htrade, Nat.mul_add]
    simp only [RefillerPlace.left, RefillerPlace.calls, tradeWorth]
    omega
  | notify =>
    obtain ⟨m₁, hm₁, h⟩ := Option.map_eq_some_iff.mp h
    cases h
    refine ⟨fun i p => p.left_of_woken c.cars (notifyEmpty_empty hm₁ i), ?_⟩
    rw [tradeLeft_calm (calm_notifyEmpty hm₁)]
    simp only [RefillerPlace.left, RefillerPlace.calls]
    omega
  | leaveNotify =>
    obtain ⟨m₁, hm₁, h⟩ := Option.map_eq_some_iff.mp h
    cases h
    refine ⟨fun i p => p.left_of_woken c.cars (signalEmpty_empty hm₁ i), ?_⟩
    rw [tradeLeft_calm (calm_signalEmpty hm₁)]
    simp only [RefillerPlace.left, RefillerPlace.calls]
    omega
  | unlock =>
    cases e <;> cases h
    refine ⟨fun _ _ => le_refl _, ?_⟩
    simp only [RefillerPlace.left, RefillerPlace.calls]
    omega
  | leaveUnlock =>
    cases e <;> cases h
    have htrade : tradeLeft { m with refillerReturned := true } = tradeLeft m := rfl
    refine ⟨fun _ _ => le_refl _, ?_⟩
    simp only [htrade, RefillerPlace.left, RefillerPlace.calls]
    omega
  | returned => cases e <;> cases h

theorem tradeLeft_fill {i : Customer c} (h : m.cars i < TANK_CAPACITY) :
    tradeLeft (m.setCar i (m.cars i + 35)) + 2 = tradeLeft m := by
  have hsum := sum_of_moved (f := fun j => purchasesLeft ((m.setCar i (m.cars i + 35)).cars j))
    (g := fun j => purchasesLeft (m.cars j)) i fun j hj => by
      show purchasesLeft (Function.update m.cars i (m.cars i + 35) j) = _
      rw [Function.update_of_ne hj]
  have hone := purchasesLeft_fill h
  have hcar : (m.setCar i (m.cars i + 35)).cars i = m.cars i + 35 := Function.update_self ..
  have hfuel : (m.setCar i (m.cars i + 35)).fuel = m.fuel := rfl
  simp only [hcar] at hsum
  simp only [tradeLeft, hfuel]
  omega

theorem tradeLeft_clearFuel (m : Shared c) : tradeLeft (m.setFuel 0) ≤ tradeLeft m + 1 := by
  have hempty : tradeLeft (m.setFuel 0) = 2 * ∑ i, purchasesLeft (m.cars i) + 1 := by
    simp [tradeLeft, Shared.setFuel]
  rw [hempty, tradeLeft]
  omega

theorem purchase_left {i : Customer c} {pc pc' : CustomerPlace} (hk : pc.Knows i m)
    (h : purchase i pc m e = some (pc', m', op)) :
    (∀ p : RefillerPlace, p.left c.cars m'.full ≤ p.left c.cars m.full + pc.rings c.cars) ∧
      pc'.left c.cars (m'.empty i) + pc.rings c.cars + tradeWorth c.cars * tradeLeft m' <
        pc.left c.cars (m.empty i) + tradeWorth c.cars * tradeLeft m + costOf c.cars e := by
  have hempty : ∀ w, (m.setEmpty i w).empty i = w := fun w => Function.update_self ..
  cases pc with
  | start =>
    cases e <;> try cases h
    simp only [purchase] at h
    split at h <;> cases h
    refine ⟨fun _ => le_refl _, ?_⟩
    simp only [CustomerPlace.left, CustomerPlace.rings]
    omega
  | lock =>
    cases e <;> cases h
    refine ⟨fun _ => le_refl _, ?_⟩
    simp only [CustomerPlace.left, CustomerPlace.rings]
    omega
  | testFuel =>
    cases e <;> cases h
    refine ⟨fun _ => le_refl _, ?_⟩
    split <;> simp only [CustomerPlace.left, CustomerPlace.rings] <;> omega
  | condWait =>
    cases e <;> cases h
    refine ⟨fun _ => le_refl _, ?_⟩
    rw [hempty, tradeLeft_setEmpty]
    simp only [CustomerPlace.left, CustomerPlace.rings]
    omega
  | asleep =>
    cases e <;> try cases h
    · simp only [purchase] at h
      split at h <;> cases h
      rename_i hawake
      refine ⟨fun _ => le_refl _, ?_⟩
      rw [tradeLeft_setEmpty]
      cases hw : m.empty i with
      | waiting => exact absurd hw hawake
      | out | woken =>
        simp only [CustomerPlace.left, CustomerPlace.rings]
        omega
    · have hwake := CustomerPlace.left_wake c.cars .asleep (m.empty i)
      refine ⟨fun _ => le_refl _, ?_⟩
      rw [hempty, tradeLeft_setEmpty]
      simp only [CustomerPlace.rings, costOf, Event.isSpurious, wakeUpCost, if_true]
      omega
  | loadCar | loadFuel car =>
    cases e <;> cases h
    refine ⟨fun _ => le_refl _, ?_⟩
    simp only [CustomerPlace.left, CustomerPlace.rings]
    omega
  | storeCar car fuel =>
    cases e <;> cases h
    obtain ⟨hrest, hawake, -, rfl, rfl⟩ := hk
    rw [wrap32_fill hrest.toSane hawake.1]
    refine ⟨fun _ => le_refl _, ?_⟩
    rw [← tradeLeft_fill hawake.1, Nat.mul_add]
    simp only [CustomerPlace.left, CustomerPlace.rings, tradeWorth]
    omega
  | clearFuel =>
    cases e <;> cases h
    have htrade := Nat.mul_le_mul_left (tradeWorth c.cars) (tradeLeft_clearFuel m)
    rw [Nat.mul_add, Nat.mul_one] at htrade
    refine ⟨fun _ => le_refl _, ?_⟩
    simp only [CustomerPlace.left, CustomerPlace.rings]
    omega
  | testCar =>
    cases e <;> cases h
    refine ⟨fun _ => le_refl _, ?_⟩
    simp only [CustomerPlace.left, CustomerPlace.rings]
    omega
  | signalFull filled =>
    cases e <;> cases h
    refine ⟨fun p => p.left_wake c.cars m.full, ?_⟩
    have htrade : tradeLeft m.signalFull = tradeLeft m := rfl
    rw [htrade]
    simp only [CustomerPlace.left, CustomerPlace.rings]
    omega
  | unlock filled =>
    cases filled with
    | true =>
      cases e <;> cases h
      have htrade : tradeLeft (m.finish i) = tradeLeft m := rfl
      refine ⟨fun _ => le_refl _, ?_⟩
      rw [htrade]
      simp only [CustomerPlace.left, CustomerPlace.rings]
      omega
    | false =>
      cases e <;> cases h
      refine ⟨fun _ => le_refl _, ?_⟩
      simp only [CustomerPlace.left, CustomerPlace.rings]
      omega
  | returned => cases e <;> cases h

theorem purchase_others {i j : Customer c} {pc pc' : CustomerPlace} (hj : j ≠ i)
    (h : purchase i pc m e = some (pc', m', op)) : m'.empty j = m.empty j := by
  cases pc with
  | start =>
    cases e <;> try cases h
    simp only [purchase] at h
    split at h <;> cases h
    exact rfl
  | condWait =>
    cases e <;> cases h
    exact Function.update_of_ne hj _ _
  | asleep =>
    cases e <;> try cases h
    · simp only [purchase] at h
      split at h <;> cases h
      exact Function.update_of_ne hj _ _
    · exact Function.update_of_ne hj _ _
  | unlock filled => cases filled <;> cases e <;> cases h <;> exact rfl
  | _ => cases e <;> cases h <;> exact rfl

theorem mainThread_calm {pc pc' : MainPlace} (h : mainThread c pc m e = some (pc', m', op)) :
    m'.empty = m.empty ∧ m'.full = m.full ∧ tradeLeft m' = tradeLeft m := by
  cases pc with
  | create k =>
    cases e <;> cases h
    exact ⟨rfl, rfl, rfl⟩
  | join k =>
    cases e <;> try cases h
    simp only [mainThread] at h
    split at h <;> cases h
    exact ⟨rfl, rfl, rfl⟩
  | returned => cases e <;> cases h

/-- **A step leaves less to do**, unless it is a spurious wake-up. -/
theorem left_lt {s s' : State c} {t : Thread c} (hinv : Inv s)
    (hstep : step c s (t, e) = some s') : left s' < left s + costOf c.cars e := by
  obtain ⟨pc, m, op, sem, hnext, -, rfl⟩ := Sys.step_cases hstep
  cases t with
  | main =>
    change MainPlace at pc
    change mainThread c (s.pc .main) s.mem e = _ at hnext
    obtain ⟨hempty, hfull, htrade⟩ := mainThread_calm hnext
    have hless := mainThread_left hnext
    have hmain : Function.update s.pc .main pc .main = pc := Function.update_self ..
    have hrefiller : Function.update s.pc .main pc .refiller = s.pc .refiller :=
      Function.update_of_ne (by simp) _ _
    have hcustomer : ∀ i, Function.update s.pc .main pc (.customer i) = s.pc (.customer i) :=
      fun i => Function.update_of_ne (by simp) _ _
    simp only [left, hmain, hrefiller, hcustomer, hempty, hfull, htrade]
    omega
  | refiller =>
    change RefillerPlace at pc
    change refill c (s.pc .refiller) s.mem e = _ at hnext
    obtain ⟨hcalls, hless⟩ := refill_left (hinv.knows .refiller) hnext
    have hmain : Function.update s.pc .refiller pc .main = s.pc .main :=
      Function.update_of_ne (by simp) _ _
    have hrefiller : Function.update s.pc .refiller pc .refiller = pc := Function.update_self ..
    have hcustomer : ∀ i, Function.update s.pc .refiller pc (.customer i) = s.pc (.customer i) :=
      fun i => Function.update_of_ne (by simp) _ _
    have hsum := Finset.sum_le_sum fun i (_ : i ∈ Finset.univ) => hcalls i (s.pc (.customer i))
    rw [Finset.sum_add_distrib, Finset.sum_const, Finset.card_univ, Fintype.card_fin,
      smul_eq_mul] at hsum
    simp only [left, hmain, hrefiller, hcustomer]
    omega
  | customer i =>
    change CustomerPlace at pc
    change purchase i (s.pc (.customer i)) s.mem e = _ at hnext
    obtain ⟨hrings, hless⟩ := purchase_left (hinv.knows (.customer i)) hnext
    have hmain : Function.update s.pc (.customer i) pc .main = s.pc .main :=
      Function.update_of_ne (by simp) _ _
    have hrefiller : Function.update s.pc (.customer i) pc .refiller = s.pc .refiller :=
      Function.update_of_ne (by simp) _ _
    have hself : Function.update s.pc (.customer i) pc (.customer i) = pc :=
      Function.update_self ..
    have hsum := sum_of_moved
      (f := fun j => CustomerPlace.left c.cars (Function.update s.pc (.customer i) pc (.customer j))
        (m.empty j))
      (g := fun j => CustomerPlace.left c.cars (s.pc (.customer j)) (s.mem.empty j)) i
      fun j hj => by
        have hother : Function.update s.pc (.customer i) pc (.customer j) = s.pc (.customer j) :=
          Function.update_of_ne (fun h => hj (Thread.customer.inj h)) _ _
        show CustomerPlace.left _ (Function.update s.pc (.customer i) pc (.customer j)) _ = _
        rw [hother, purchase_others hj hnext]
    have hring := hrings (s.pc .refiller)
    simp only [hself] at hsum
    simp only [left, hmain, hrefiller]
    omega

theorem left_init (c : Config) : left (init c) = 54 * c.cars ^ 2 + 94 * c.cars + 22 := by
  have hcar : purchasesLeft 0 = 3 := rfl
  have htrade : tradeLeft (init c).mem = 2 * (c.cars * 3) + 1 := by
    simp [tradeLeft, init, hcar]
  have hcustomers :
      ∑ i, CustomerPlace.left c.cars ((init c).pc (.customer i)) ((init c).mem.empty i) =
        c.cars * 6 := by
    simp [init, entry, CustomerPlace.left]
  rw [left, htrade, hcustomers]
  simp only [init, entry, MainPlace.left, RefillerPlace.left, tradeWorth]
  rw [Nat.sub_zero]
  ring

/-! ## 4. Where the runs end -/

/-- A step leaves the cars alone, or it fills one of them. -/
theorem program_cars {t : Thread c} {pc pc' : Place t} (hk : Knows t pc m)
    (h : program c t pc m e = some (pc', m', op)) :
    m'.cars = m.cars ∨ ∃ i, m'.cars = Function.update m.cars i (m.cars i + 35) := by
  cases t with
  | main | refiller => exact .inl (funext fun i => (program_leaves h).cars i (by simp))
  | customer i =>
    change CustomerPlace at pc
    change CustomerPlace.Knows i pc m at hk
    change purchase i pc m e = _ at h
    cases pc with
    | start =>
      cases e <;> try cases h
      simp only [purchase] at h
      split at h <;> cases h
      exact .inl rfl
    | asleep =>
      cases e <;> try cases h
      · simp only [purchase] at h
        split at h <;> cases h
        exact .inl rfl
      · exact .inl rfl
    | storeCar car fuel =>
      cases e <;> cases h
      obtain ⟨hrest, hawake, -, rfl, rfl⟩ := hk
      rw [wrap32_fill hrest.toSane hawake.1]
      exact .inr ⟨i, rfl⟩
    | unlock filled => cases filled <;> cases e <;> cases h <;> exact .inl rfl
    | _ => cases e <;> cases h <;> exact .inl rfl

/-- A car has been filled a whole number of times. -/
def Whole (m : Shared c) : Prop := ∀ i, 35 ∣ m.cars i

theorem Whole.step {s s' : State c} {a : Thread c × Event c} (h : Whole s.mem) (hinv : Inv s)
    (hstep : step c s a = some s') : Whole s'.mem := by
  obtain ⟨t, e⟩ := a
  obtain ⟨pc, m, op, sem, hnext, -, rfl⟩ := Sys.step_cases hstep
  intro j
  show 35 ∣ m.cars j
  rcases program_cars (hinv.knows t) hnext with hsame | ⟨i, hfilled⟩
  · rw [hsame]
    exact h j
  · rw [hfilled]
    by_cases hj : j = i
    · subst hj
      rw [Function.update_self]
      exact dvd_add (h j) (dvd_refl 35)
    · rw [Function.update_of_ne hj]
      exact h j

theorem inv_of_reaches {s : State c} (h : Reaches (step c) (fun _ _ => True) (init c) s) :
    Inv s ∧ Whole s.mem := by
  induction h with
  | start => exact ⟨inv_init c, fun _ => dvd_zero 35⟩
  | next before ok moves ih => exact ⟨inv_step _ _ _ ih.1 moves, ih.2.step ih.1 moves⟩

theorem not_inside_of_returned {t : Thread c} {pc : Place t} (h : Returned t pc) :
    ¬ inside t pc := by
  cases t <;> cases h <;> exact id

/-- With everybody gone the mutex is free. -/
theorem Inv.rest_of_returned {s : State c} (h : Inv s) (hall : ∀ t, Returned t (s.pc t)) :
    Rest s.mem := by
  rcases h.locked.locks.binary () with h0 | h1
  · obtain ⟨t, ht⟩ := h.locked.owned () h0
    exact absurd ht (not_inside_of_returned (hall t))
  · exact h.free () (by rw [h1]; exact Int.one_pos)

/-- **The gas station closes.** -/
theorem station_closes (c : Config) :
    (∀ as s, run (step c) as (init c) = some s →
      as.length ≤ 54 * c.cars ^ 2 + 94 * c.cars + 22 +
        (5 + 4 * c.cars) * as.countP fun a => a.2.isSpurious) ∧
    ∀ s, Reaches (step c) (fun _ _ => True) (init c) s → (∀ t, ¬ CanStep s t) →
      (∀ t, Returned t (s.pc t)) ∧ (∀ i, s.mem.cars i = 105) ∧
        (s.mem.fuel = 0 ∧ s.mem.refills = 3 * c.cars ∨
          s.mem.fuel = 35 ∧ s.mem.refills = 3 * c.cars + 1) := by
  refine ⟨fun as s hrun => ?_, fun s hreach hstuck => ?_⟩
  · rw [← left_init c]
    refine length_le_of_costs left _ _ (fun s a s' hinv hstep => ?_) (inv_init c) hrun
    exact ⟨inv_step s a s' hinv hstep, left_lt hinv hstep⟩
  · obtain ⟨hinv, hwhole⟩ := inv_of_reaches hreach
    have hreturned : ∀ t, Returned t (s.pc t) := by
      by_contra hun
      push Not at hun
      obtain ⟨t, -, ht⟩ := hinv.canStep hun
      exact hstuck t ht
    have hrest := hinv.rest_of_returned hreturned
    have hcars : ∀ i, s.mem.cars i = 105 := by
      intro i
      have hk : CustomerPlace.Knows i (s.pc (.customer i)) s.mem := hinv.knows (.customer i)
      rw [show s.pc (.customer i) = CustomerPlace.returned from hreturned (.customer i)] at hk
      have hlow : 75 ≤ s.mem.cars i := hk.1
      have hhigh : s.mem.cars i < 110 := (hrest.cars i).2
      have hdvd := hwhole i
      omega
    refine ⟨hreturned, hcars, ?_⟩
    have hbalance := hrest.balance
    simp only [hcars, Finset.sum_const, Finset.card_univ, Fintype.card_fin,
      nsmul_eq_mul] at hbalance
    rcases hrest.fuel with hfuel | hfuel
    · rw [hfuel] at hbalance
      exact .inl ⟨hfuel, by omega⟩
    · rw [hfuel] at hbalance
      exact .inr ⟨hfuel, by omega⟩

end GasStation
end Labs
