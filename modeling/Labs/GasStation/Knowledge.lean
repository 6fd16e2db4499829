import Labs.GasStation.Accounts

/-!
# What the threads of the gas station know

Between its acquire and its release a thread knows what it has found and what it has made of it.
Outside, a customer knows that its car is not full before it returns, and the refiller that all cars
are full after it has returned: nobody else fills a car, and nobody fills a full one.

## Two kinds of facts

There is one mutex, and what a thread knows under it is lost when it gives it back, unless nobody
else can change it. So the assertions come in two kinds.

* Inside, a place has what was found since the mutex was acquired: whether there is fuel, which cars
  have been looked at. These are stable because nobody else is inside (`Rest` says what the memory
  looks like between two critical sections).
* Outside, there are facts that are their thread's own. A customer fills its car, and nobody else
  does, so that it is not full lasts until the customer itself changes it. That *all* cars are full
  lasts as well: a full car is not filled again. And whether a thread is among those that wait is up
  to itself, as far as going to sleep is concerned; others may only wake it.

Both versions have the same places, and differ in whom a notification reaches; the assertions do not
mention the version.
-/

namespace Labs
namespace GasStation

open Lib

variable {c : Config} {m m' : Shared c} {op : SemOp Unit} {e : Event c}

/-! ## 1. Assertions -/

/-- The customer has a car to fill, and does not wait. -/
def Awake (i : Customer c) (m : Shared c) : Prop :=
  m.cars i < TANK_CAPACITY ∧ m.empty i ≠ .waiting

def CustomerPlace.Knows (i : Customer c) : CustomerPlace → Shared c → Prop
  | .start, m | .lock, m => Awake i m
  | .testFuel, m => Rest m ∧ Awake i m
  | .condWait, m => Rest m ∧ Awake i m ∧ m.fuel = 0
  | .asleep, m => m.cars i < TANK_CAPACITY
  | .loadCar, m => Rest m ∧ Awake i m ∧ m.fuel = 35
  | .loadFuel car, m => Rest m ∧ Awake i m ∧ m.fuel = 35 ∧ car = m.cars i
  | .storeCar car fuel, m => Rest m ∧ Awake i m ∧ m.fuel = 35 ∧ car = m.cars i ∧ fuel = 35
  -- the fuel is in the car, and still in the storage
  | .clearFuel, m => Sane m ∧ m.empty i ≠ .waiting ∧ m.fuel = 35 ∧ ∑ j, m.cars j = 35 * m.refills
  | .testCar, m => Books m ∧ m.empty i ≠ .waiting ∧ m.fuel = 0
  | .signalFull filled, m =>
    Books m ∧ m.empty i ≠ .waiting ∧ m.fuel = 0 ∧ filled = decide (TANK_CAPACITY ≤ m.cars i)
  | .unlock filled, m =>
    Rest m ∧ m.empty i ≠ .waiting ∧ filled = decide (TANK_CAPACITY ≤ m.cars i)
  | .returned, m => TANK_CAPACITY ≤ m.cars i ∧ m.returned i = true

def AllFilled (m : Shared c) : Prop := ∀ i, TANK_CAPACITY ≤ m.cars i

def RefillerPlace.Knows : RefillerPlace → Shared c → Prop
  | .start, m | .lock, m => m.full = .out
  | .scan k, m => Rest m ∧ m.full = .out ∧ ∀ i : Customer c, i.val < k → TANK_CAPACITY ≤ m.cars i
  | .testFuel doRefill, m => Rest m ∧ m.full = .out ∧ (doRefill = false → AllFilled m) ∧
      (doRefill = true → m.fuel = 35 → ∃ i, m.cars i < TANK_CAPACITY)
  | .condWait doRefill, m =>
    Rest m ∧ doRefill = true ∧ m.fuel = 35 ∧ ∃ i, m.cars i < TANK_CAPACITY
  | .asleep doRefill, m => doRefill = true ∧ m.full ≠ .out
  | .setFuel, m => Rest m ∧ m.full = .out ∧ m.fuel = 0
  | .notify, m => Books m ∧ m.full = .out ∧ m.fuel = 35
  | .unlock, m => Rest m ∧ m.full = .out
  | .leaveNotify, m | .leaveUnlock, m => Rest m ∧ AllFilled m
  | .returned, m => m.refillerReturned = true ∧ AllFilled m

def MainPlace.Knows : MainPlace → Shared c → Prop
  | .create k, m => m.created = k
  | .join _, m | .returned, m => c.cars + 1 ≤ m.created

def Knows : (t : Thread c) → Place t → Shared c → Prop
  | .main, pc, m => MainPlace.Knows pc m
  | .refiller, pc, m => RefillerPlace.Knows pc m
  | .customer i, pc, m => CustomerPlace.Knows i pc m

/-! ## 2. The steps of a customer -/

theorem sum_setCar (m : Shared c) (i : Customer c) (x : Int) :
    ∑ j, (m.setCar i x).cars j = ∑ j, m.cars j + (x - m.cars i) :=
  sum_update (fun _ (y : Int) => y) m.cars i x

theorem wrap32_fill (hs : Sane m) {i : Customer c} (hi : m.cars i < TANK_CAPACITY) :
    wrap32 (m.cars i + 35) = m.cars i + 35 := by
  have h0 := (hs.cars i).1
  refine wrap32_of_inRange ⟨?_, ?_⟩
  · exact le_trans (by decide : INT_MIN ≤ 0 + 35) (Int.add_le_add_right h0 35)
  · exact le_trans (Int.add_le_add_right (le_of_lt hi) 35) (by decide)

/-- A car is filled. -/
theorem Sane.setCar {i : Customer c} {x : Int} (hs : Sane m) (hw : m.empty i ≠ .waiting)
    (hx : 0 ≤ x ∧ x < TANK_CAPACITY + GAS_STORAGE) : Sane (m.setCar i x) := by
  refine ⟨fun j => ?_, fun j hj => ?_⟩
  · show 0 ≤ Function.update m.cars i x j ∧ Function.update m.cars i x j < _
    by_cases h : j = i
    · subst h
      rw [Function.update_self]
      exact hx
    · rw [Function.update_of_ne h]
      exact hs.cars j
  · show Function.update m.cars i x j < TANK_CAPACITY
    have hne : j ≠ i := by
      intro h
      subst h
      exact hw hj
    rw [Function.update_of_ne hne]
    exact hs.thirsty j hj

/-- The customer goes to sleep because there is no fuel. -/
theorem Rest.sleep {i : Customer c} (h : Rest m) (hi : m.cars i < TANK_CAPACITY)
    (hfuel : m.fuel = 0) : Rest (m.setEmpty i .waiting) := by
  have hno : (m.setEmpty i .waiting).fuel ≠ 35 := by
    show m.fuel ≠ 35
    rw [hfuel]
    simp
  refine ⟨⟨⟨h.cars, fun j hj => ?_⟩, h.fuel, h.balance⟩, h.stored, h.needed, fun hf => absurd hf hno⟩
  by_cases hji : j = i
  · subst hji
    exact hi
  · change Function.update m.empty i .waiting j = .waiting at hj
    rw [Function.update_of_ne hji] at hj
    exact h.thirsty j hj

/-- Without fuel, and with the refiller awake. -/
theorem Rest.of_signalFull (h : Books m) (hfuel : m.fuel = 0) : Rest m.signalFull := by
  have hno : m.signalFull.fuel ≠ 35 := by
    show m.fuel ≠ 35
    rw [hfuel]
    simp
  exact ⟨⟨⟨h.cars, h.thirsty⟩, h.fuel, h.balance⟩, fun hf => absurd hf (wake_ne_waiting _),
    fun _ hf => absurd hf hno, fun hf => absurd hf hno⟩

/-- **A step of a customer.** -/
theorem purchase_knows {i : Customer c} {pc pc' : CustomerPlace} (hk : pc.Knows i m)
    (h : purchase i pc m e = some (pc', m', op)) (hwait : op = .wait () → Rest m) :
    pc'.Knows i m' ∧ (op = .post () → Rest m') := by
  cases pc with
  | start =>
    cases e <;> try cases h
    simp only [purchase] at h
    split at h <;> cases h
    exact ⟨hk, SemOp.of_skip_eq_post⟩
  | lock =>
    cases e <;> cases h
    exact ⟨⟨hwait rfl, hk⟩, SemOp.of_wait_eq_post⟩
  | testFuel =>
    cases e <;> cases h
    obtain ⟨hrest, hawake⟩ := hk
    refine ⟨?_, SemOp.of_skip_eq_post⟩
    split
    · rename_i hfuel
      exact ⟨hrest, hawake, hfuel⟩
    · rename_i hfuel
      exact ⟨hrest, hawake, hrest.fuel.resolve_left hfuel⟩
  | condWait =>
    cases e <;> cases h
    obtain ⟨hrest, hawake, hfuel⟩ := hk
    exact ⟨hawake.1, fun _ => hrest.sleep hawake.1 hfuel⟩
  | asleep =>
    cases e <;> try cases h
    · simp only [purchase] at h
      split at h <;> cases h
      refine ⟨⟨(hwait rfl).calm (.setEmpty (by simp)), hk, ?_⟩, SemOp.of_wait_eq_post⟩
      show Function.update m.empty i .out i ≠ .waiting
      rw [Function.update_self]
      simp
    · exact ⟨hk, SemOp.of_skip_eq_post⟩
  | loadCar =>
    cases e <;> cases h
    exact ⟨⟨hk.1, hk.2.1, hk.2.2, rfl⟩, SemOp.of_skip_eq_post⟩
  | loadFuel car =>
    cases e <;> cases h
    obtain ⟨hrest, hawake, hfuel, hcar⟩ := hk
    exact ⟨⟨hrest, hawake, hfuel, hcar, hfuel⟩, SemOp.of_skip_eq_post⟩
  | storeCar car fuel =>
    cases e <;> cases h
    obtain ⟨hrest, hawake, hfuel, rfl, rfl⟩ := hk
    rw [wrap32_fill hrest.toSane hawake.1]
    have h0 := (hrest.cars i).1
    refine ⟨⟨hrest.toSane.setCar hawake.2 ⟨?_, Int.add_lt_add_right hawake.1 35⟩, hawake.2,
      hfuel, ?_⟩, SemOp.of_skip_eq_post⟩
    · exact le_trans h0 (by simp)
    · rw [sum_setCar]
      have hbalance := hrest.balance
      rw [hfuel] at hbalance
      show _ = 35 * (m.refills : Int)
      rw [← hbalance]
      ring
  | clearFuel =>
    cases e <;> cases h
    obtain ⟨hsane, hw, hfuel, hbalance⟩ := hk
    refine ⟨⟨⟨⟨hsane.cars, hsane.thirsty⟩, .inl rfl, ?_⟩, hw, rfl⟩, SemOp.of_skip_eq_post⟩
    show ∑ j, m.cars j + 0 = 35 * (m.refills : Int)
    rw [add_zero]
    exact hbalance
  | testCar =>
    cases e <;> cases h
    exact ⟨⟨hk.1, hk.2.1, hk.2.2, rfl⟩, SemOp.of_skip_eq_post⟩
  | signalFull filled =>
    cases e <;> cases h
    obtain ⟨hbooks, hw, hfuel, hfilled⟩ := hk
    exact ⟨⟨.of_signalFull hbooks hfuel, hw, hfilled⟩, SemOp.of_skip_eq_post⟩
  | unlock filled =>
    obtain ⟨hrest, hw, hfilled⟩ := hk
    cases filled with
    | true =>
      cases e <;> cases h
      refine ⟨⟨of_decide_eq_true hfilled.symm, ?_⟩, fun _ => ?_⟩
      · exact Function.update_self ..
      · exact hrest.calm ⟨rfl, rfl, rfl, fun _ => id, id, id⟩
    | false =>
      cases e <;> cases h
      exact ⟨⟨not_le.mp (of_decide_eq_false hfilled.symm), hw⟩, fun _ => hrest⟩
  | returned => cases e <;> cases h

/-! ## 3. The steps of the refiller and of `main` -/

theorem isRefillNeeded_knows {k : Nat} (hrest : Rest m) (hout : m.full = .out)
    (hbefore : ∀ i : Customer c, i.val < k → TANK_CAPACITY ≤ m.cars i) :
    (isRefillNeeded m k).Knows m := by
  unfold isRefillNeeded
  split
  · rename_i hk
    split
    · rename_i hcar
      exact ⟨hrest, hout, nofun, fun _ _ => ⟨_, hcar⟩⟩
    · rename_i hcar
      refine ⟨hrest, hout, fun i hi => ?_⟩
      rcases Nat.lt_succ_iff_lt_or_eq.mp hi with hlt | heq
      · exact hbefore i hlt
      · have hik : i = ⟨k, hk⟩ := Fin.ext heq
        rw [hik]
        exact not_lt.mp hcar
  · rename_i hk
    have hall : AllFilled m := fun i => hbefore i (lt_of_lt_of_le i.isLt (not_lt.mp hk))
    exact ⟨hrest, hout, fun _ => hall, nofun⟩

/-- The storage is filled, and the notification is still to come. -/
theorem Books.refill (h : Books m) (hfuel : m.fuel = 0) : Books m.refill := by
  refine ⟨⟨h.cars, h.thirsty⟩, .inr rfl, ?_⟩
  have hbalance := h.balance
  rw [hfuel, add_zero] at hbalance
  show ∑ i, m.cars i + 35 = 35 * ((m.refills + 1 : Nat) : Int)
  rw [hbalance]
  push_cast
  ring

/-- **A step of the refiller.** -/
theorem refill_knows {pc pc' : RefillerPlace} (hk : pc.Knows m)
    (h : refill c pc m e = some (pc', m', op)) (hwait : op = .wait () → Rest m) :
    pc'.Knows m' ∧ (op = .post () → Rest m') := by
  cases pc with
  | start =>
    cases e <;> try cases h
    simp only [refill] at h
    split at h <;> cases h
    exact ⟨hk, SemOp.of_skip_eq_post⟩
  | lock =>
    cases e <;> cases h
    exact ⟨⟨hwait rfl, hk, fun i hi => absurd hi (Nat.not_lt_zero _)⟩, SemOp.of_wait_eq_post⟩
  | scan k =>
    cases e <;> cases h
    exact ⟨isRefillNeeded_knows hk.1 hk.2.1 hk.2.2, SemOp.of_skip_eq_post⟩
  | testFuel doRefill =>
    cases e <;> try cases h
    obtain ⟨hrest, hout, hall, hneeded⟩ := hk
    simp only [refill] at h
    split at h
    · rename_i hstored
      cases h
      have hfuel : m.fuel = 35 := by
        rcases hrest.fuel with h0 | h35
        · rw [h0] at hstored
          exact absurd hstored.1 (by simp)
        · exact h35
      exact ⟨⟨hrest, hstored.2, hfuel, hneeded hstored.2 hfuel⟩, SemOp.of_skip_eq_post⟩
    · rename_i hstored
      split at h <;> cases h
      · rename_i hno
        refine ⟨?_, SemOp.of_skip_eq_post⟩
        split <;> exact ⟨hrest, hall hno⟩
      · rename_i hdo
        have hdo : doRefill = true := by simpa using hdo
        refine ⟨⟨hrest, hout, ?_⟩, SemOp.of_skip_eq_post⟩
        rcases hrest.fuel with h0 | h35
        · exact h0
        · exact absurd ⟨le_of_eq h35.symm, hdo⟩ hstored
  | condWait doRefill =>
    cases e <;> cases h
    obtain ⟨hrest, hdo, hfuel, hcar⟩ := hk
    refine ⟨⟨hdo, by simp [Shared.setFull]⟩, fun _ => ?_⟩
    exact ⟨⟨⟨hrest.cars, hrest.thirsty⟩, hrest.fuel, hrest.balance⟩, fun _ => hfuel,
      fun _ _ => hcar, hrest.wanted⟩
  | asleep doRefill =>
    cases e <;> try cases h
    · simp only [refill] at h
      split at h <;> cases h
      obtain ⟨rfl, hin⟩ := hk
      have hrest := hwait rfl
      have hcalm := hrest.calm (.setFull (by simp) fun _ => rfl)
      refine ⟨⟨hcalm, rfl, fun h => absurd h (by simp), fun _ hfuel => ?_⟩, SemOp.of_wait_eq_post⟩
      exact hrest.needed hin hfuel
    · exact ⟨⟨hk.1, fun hout => hk.2 (wake_eq_out.mp hout)⟩, SemOp.of_skip_eq_post⟩
  | setFuel =>
    cases e <;> cases h
    obtain ⟨hrest, hout, hfuel⟩ := hk
    exact ⟨⟨hrest.toBooks.refill hfuel, hout, rfl⟩, SemOp.of_skip_eq_post⟩
  | notify =>
    obtain ⟨m₁, hm₁, h⟩ := Option.map_eq_some_iff.mp h
    cases h
    obtain ⟨hbooks, hout, hfuel⟩ := hk
    have hcalm := calm_notifyEmpty hm₁
    have hout' := hcalm.full_out hout
    refine ⟨⟨⟨hbooks.calm hcalm, fun hf => ?_, fun hf => absurd hout' hf, fun _ hcar => ?_⟩,
      hout'⟩, SemOp.of_skip_eq_post⟩
    · exact absurd (hout'.symm.trans hf) (by simp)
    · exact wanted_notifyEmpty hbooks.toSane hm₁ hcar
  | unlock =>
    cases e <;> cases h
    exact ⟨hk.2, fun _ => hk.1⟩
  | leaveNotify =>
    obtain ⟨m₁, hm₁, h⟩ := Option.map_eq_some_iff.mp h
    cases h
    have hcalm := calm_signalEmpty hm₁
    refine ⟨⟨hk.1.calm hcalm, fun i => ?_⟩, SemOp.of_skip_eq_post⟩
    rw [hcalm.cars]
    exact hk.2 i
  | leaveUnlock =>
    cases e <;> cases h
    exact ⟨⟨rfl, hk.2⟩, fun _ => hk.1.calm ⟨rfl, rfl, rfl, fun _ => id, id, id⟩⟩
  | returned => cases e <;> cases h

theorem mainThread_knows {pc pc' : MainPlace} (hk : pc.Knows m)
    (h : mainThread c pc m e = some (pc', m', op)) : pc'.Knows m' := by
  cases pc with
  | create k =>
    cases e <;> cases h
    split
    · exact rfl
    · rename_i hlast
      exact not_lt.mp hlast
  | join k =>
    cases e <;> try cases h
    simp only [mainThread] at h
    split at h <;> cases h
    split <;> exact hk
  | returned => cases e <;> cases h

/-! ## 4. What another thread's step leaves -/

/-- What every step of `t` leaves. -/
structure Leaves (t : Thread c) (m m' : Shared c) : Prop where
  cars : ∀ i, t ≠ .customer i → m'.cars i = m.cars i
  empty : ∀ i, t ≠ .customer i → m'.empty i = .waiting → m.empty i = .waiting
  full : t ≠ .refiller → (m'.full = .out ↔ m.full = .out)
  returned : ∀ i, m.returned i = true → m'.returned i = true
  gone : m.refillerReturned = true → m'.refillerReturned = true
  created : t ≠ .main → m'.created = m.created

theorem Leaves.refl (t : Thread c) (m : Shared c) : Leaves t m m :=
  ⟨fun _ _ => rfl, fun _ _ => id, fun _ => Iff.rfl, fun _ => id, id, fun _ => rfl⟩

theorem Leaves.setEmpty (m : Shared c) (i : Customer c) (w : Wait) :
    Leaves (.customer i) m (m.setEmpty i w) := by
  refine ⟨fun _ _ => rfl, fun j hj hw => ?_, fun _ => Iff.rfl, fun _ => id, id, fun _ => rfl⟩
  change Function.update m.empty i w j = .waiting at hw
  rwa [Function.update_of_ne fun h => hj (congrArg Thread.customer h.symm)] at hw

theorem Leaves.setFull (m : Shared c) (w : Wait) : Leaves .refiller m (m.setFull w) :=
  ⟨fun _ _ => rfl, fun _ _ => id, fun h => absurd rfl h, fun _ => id, id, fun _ => rfl⟩

theorem Leaves.setCar (m : Shared c) (i : Customer c) (x : Int) :
    Leaves (.customer i) m (m.setCar i x) := by
  refine ⟨fun j hj => ?_, fun _ _ => id, fun _ => Iff.rfl, fun _ => id, id, fun _ => rfl⟩
  exact Function.update_of_ne (fun h => hj (congrArg Thread.customer h.symm)) _ _

theorem Leaves.finish (m : Shared c) (i : Customer c) : Leaves (.customer i) m (m.finish i) := by
  refine ⟨fun _ _ => rfl, fun _ _ => id, fun _ => Iff.rfl, fun j hj => ?_, id, fun _ => rfl⟩
  show Function.update m.returned i true j = true
  by_cases h : j = i
  · subst h
    exact Function.update_self ..
  · rw [Function.update_of_ne h]
    exact hj

theorem Leaves.signalEmpty (h : signalEmpty m e = some m') : Leaves .refiller m m' := by
  cases e with
  | ok =>
    simp only [GasStation.signalEmpty] at h
    split at h <;> cases h
    exact .refl _ _
  | wake i =>
    have hcalm := calm_signalEmpty h
    simp only [GasStation.signalEmpty] at h
    split at h <;> cases h
    exact ⟨fun _ _ => rfl, fun j _ => hcalm.empty j, fun h => absurd rfl h, fun _ => id, id,
      fun _ => rfl⟩
  | spurious => cases h

theorem purchase_leaves {i : Customer c} {pc pc' : CustomerPlace}
    (h : purchase i pc m e = some (pc', m', op)) : Leaves (.customer i) m m' := by
  cases pc with
  | start =>
    cases e <;> try cases h
    simp only [purchase] at h
    split at h <;> cases h
    exact .refl _ _
  | condWait =>
    cases e <;> cases h
    exact .setEmpty _ _ _
  | asleep =>
    cases e <;> try cases h
    · simp only [purchase] at h
      split at h <;> cases h
      exact .setEmpty _ _ _
    · exact .setEmpty _ _ _
  | storeCar car fuel =>
    cases e <;> cases h
    exact .setCar _ _ _
  | clearFuel =>
    cases e <;> cases h
    exact ⟨fun _ _ => rfl, fun _ _ => id, fun _ => Iff.rfl, fun _ => id, id, fun _ => rfl⟩
  | signalFull filled =>
    cases e <;> cases h
    exact ⟨fun _ _ => rfl, fun _ _ => id, fun _ => wake_eq_out, fun _ => id, id, fun _ => rfl⟩
  | unlock filled =>
    cases filled <;> cases e <;> cases h
    · exact .refl _ _
    · exact .finish _ _
  | _ => cases e <;> cases h <;> exact .refl _ _

theorem refill_leaves {pc pc' : RefillerPlace} (h : refill c pc m e = some (pc', m', op)) :
    Leaves .refiller m m' := by
  cases pc with
  | start =>
    cases e <;> try cases h
    simp only [refill] at h
    split at h <;> cases h
    exact .refl _ _
  | testFuel doRefill =>
    cases e <;> try cases h
    simp only [refill] at h
    split at h
    · cases h
      exact .refl _ _
    · split at h <;> cases h <;> exact .refl _ _
  | condWait doRefill =>
    cases e <;> cases h
    exact .setFull _ _
  | asleep doRefill =>
    cases e <;> try cases h
    · simp only [refill] at h
      split at h <;> cases h
      exact .setFull _ _
    · exact .setFull _ _
  | setFuel =>
    cases e <;> cases h
    exact ⟨fun _ _ => rfl, fun _ _ => id, fun h => absurd rfl h, fun _ => id, id, fun _ => rfl⟩
  | notify =>
    obtain ⟨m₁, hm₁, h⟩ := Option.map_eq_some_iff.mp h
    cases h
    unfold notifyEmpty at hm₁
    split at hm₁
    · exact .signalEmpty hm₁
    · cases hm₁
      exact ⟨fun _ _ => rfl, fun i _ hw => absurd hw (wake_ne_waiting _), fun h => absurd rfl h,
        fun _ => id, id, fun _ => rfl⟩
    · cases hm₁
  | leaveNotify =>
    obtain ⟨m₁, hm₁, h⟩ := Option.map_eq_some_iff.mp h
    cases h
    exact .signalEmpty hm₁
  | leaveUnlock =>
    cases e <;> cases h
    exact ⟨fun _ _ => rfl, fun _ _ => id, fun h => absurd rfl h, fun _ => id, fun _ => rfl,
      fun _ => rfl⟩
  | _ => cases e <;> cases h <;> exact .refl _ _

theorem mainThread_leaves {pc pc' : MainPlace} (h : mainThread c pc m e = some (pc', m', op)) :
    Leaves .main m m' ∧ Calm m m' := by
  cases pc with
  | create k =>
    cases e <;> cases h
    exact ⟨⟨fun _ _ => rfl, fun _ _ => id, fun _ => Iff.rfl, fun _ => id, id,
      fun h => absurd rfl h⟩, ⟨rfl, rfl, rfl, fun _ => id, id, id⟩⟩
  | join k =>
    cases e <;> try cases h
    simp only [mainThread] at h
    split at h <;> cases h
    exact ⟨.refl _ _, .refl _⟩
  | returned => cases e <;> cases h

theorem program_leaves {t : Thread c} {pc pc' : Place t}
    (h : program c t pc m e = some (pc', m', op)) : Leaves t m m' := by
  cases t with
  | main => exact (mainThread_leaves h).1
  | refiller => exact refill_leaves h
  | customer i => exact purchase_leaves h

/-- Without the mutex nobody changes the fuel or the cars, or begins to wait. -/
theorem program_calm {t : Thread c} {pc pc' : Place t} (hout : ¬ inside t pc)
    (h : program c t pc m e = some (pc', m', op)) : Calm m m' := by
  cases t with
  | main => exact (mainThread_leaves h).2
  | refiller =>
    change RefillerPlace at pc
    change refill c pc m e = _ at h
    cases pc with
    | start =>
      cases e <;> try cases h
      simp only [refill] at h
      split at h <;> cases h
      exact .refl _
    | lock =>
      cases e <;> cases h
      exact .refl _
    | asleep doRefill =>
      cases e <;> try cases h
      · simp only [refill] at h
        split at h <;> cases h
        exact .setFull (by simp) fun _ => rfl
      · exact .setFull (wake_ne_waiting _) fun hout => wake_eq_out.mpr hout
    | returned => cases e <;> cases h
    | _ => exact absurd trivial hout
  | customer i =>
    change CustomerPlace at pc
    change purchase i pc m e = _ at h
    cases pc with
    | start =>
      cases e <;> try cases h
      simp only [purchase] at h
      split at h <;> cases h
      exact .refl _
    | lock =>
      cases e <;> cases h
      exact .refl _
    | asleep =>
      cases e <;> try cases h
      · simp only [purchase] at h
        split at h <;> cases h
        exact .setEmpty (by simp)
      · exact .setEmpty (wake_ne_waiting _)
    | returned => cases e <;> cases h
    | _ => exact absurd trivial hout

end GasStation
end Labs
