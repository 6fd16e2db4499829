import Labs.GasStation.Closing
import Labs.OneCar.Program

/-!
# What the threads know about the car

While the mutex is free the fuel is in the car and in the storage, there is fuel only for a car that
is not full, the refiller waits only for a full storage and the customer only for an empty one
(`Rest`). So they never wait for each other. A thread has to leave it like that when it gives the
mutex back; in between it knows what it has made of it (`Knows`).

## Why this is the right thing to protect

`Books` would do for the numbers: what was in the storage at the start and what was refilled since
is in the car or still in the storage. It does not say that anybody can go on. `Rest` adds the two
facts that a thread relies on when it goes to sleep: the one who could help it is not asleep too.
They are about the `wait` of the threads, so they have to survive a signal, a spurious wake-up and
the end of a thread. All three are `Calm`: they wake somebody or record something, and nobody begins
to wait. So `Rest.calm` settles every step that moves no fuel.

What is left are four steps. Two threads go to sleep, each because of what it has just tested under
the mutex (`Rest.sleepCustomer`, `Rest.sleepRefiller`), and two change the car or the storage and
give the mutex back afterwards (`Books.rest`). The versions differ in whom a signal can wake
(`signal`) and in where the refiller looks at the car. The assertions are the same for all of them.

The customer that is asleep knows one thing of the car, that it is not full, since it has left the
loop otherwise. That is stable because nobody but the customer fills the car.
-/

namespace Labs
namespace OneCar

open Lib
open GasStation (GAS_STORAGE TANK_CAPACITY Wait wake_ne_waiting)

variable {v : Version} {m m' : Shared} {op : SemOp Unit} {e : Event}

/-! ## 1. The mutex -/

def CustomerPlace.inside : CustomerPlace → Prop
  | .start | .lock | .asleep | .returned => False
  | _ => True

def RefillerPlace.inside : RefillerPlace → Prop
  | .start | .lock | .asleep | .returned => False
  | _ => True

def inside : (t : Thread) → Place t → Prop
  | .main, _ => False
  | .customer, pc => CustomerPlace.inside pc
  | .refiller, pc => RefillerPlace.inside pc

def held : (t : Thread) → Place t → Set Unit := heldInside inside

theorem purchase_passes {pc pc' : CustomerPlace} (h : purchase v pc m e = some (pc', m', op)) :
    Passes inside .customer pc pc' op := by
  cases pc with
  | start =>
    cases e <;> try cases h
    simp only [purchase] at h
    split at h <;> cases h
    exact .inl ⟨rfl, Iff.rfl⟩
  | lock =>
    cases e <;> cases h
    exact .inr (.inl ⟨rfl, id, trivial⟩)
  | testFuel =>
    cases e <;> cases h
    refine .inl ⟨rfl, fun _ => ?_, fun _ => trivial⟩
    split <;> trivial
  | condWait =>
    cases e <;> cases h
    exact .inr (.inr ⟨rfl, trivial, id⟩)
  | asleep =>
    cases e <;> try cases h
    · simp only [purchase] at h
      split at h <;> cases h
      exact .inr (.inl ⟨rfl, id, trivial⟩)
    · exact .inl ⟨rfl, Iff.rfl⟩
  | notify filled =>
    obtain ⟨m₁, -, hm₁⟩ := Option.map_eq_some_iff.mp h
    cases hm₁
    exact .inl ⟨rfl, Iff.rfl⟩
  | unlock filled =>
    cases filled <;> cases e <;> cases h <;> exact .inr (.inr ⟨rfl, trivial, id⟩)
  | returned => cases e <;> cases h
  | _ =>
    cases e <;> cases h
    exact .inl ⟨rfl, Iff.rfl⟩

theorem refill_passes {pc pc' : RefillerPlace} (h : refill v pc m e = some (pc', m', op)) :
    Passes inside .refiller pc pc' op := by
  cases pc with
  | start =>
    cases e <;> try cases h
    simp only [refill] at h
    split at h <;> cases h
    exact .inl ⟨rfl, Iff.rfl⟩
  | lock =>
    cases e <;> cases h
    refine .inr (.inl ⟨rfl, id, ?_⟩)
    split <;> trivial
  | testCar | testFuel | testAgain =>
    cases e <;> cases h
    refine .inl ⟨rfl, fun _ => ?_, fun _ => trivial⟩
    split <;> trivial
  | condWait | unlock | leaveUnlock =>
    cases e <;> cases h
    exact .inr (.inr ⟨rfl, trivial, id⟩)
  | asleep =>
    cases e <;> try cases h
    · simp only [refill] at h
      split at h <;> cases h
      exact .inr (.inl ⟨rfl, id, trivial⟩)
    · exact .inl ⟨rfl, Iff.rfl⟩
  | setFuel =>
    cases e <;> cases h
    exact .inl ⟨rfl, Iff.rfl⟩
  | notify | leaveNotify =>
    obtain ⟨m₁, -, hm₁⟩ := Option.map_eq_some_iff.mp h
    cases hm₁
    exact .inl ⟨rfl, Iff.rfl⟩
  | returned => cases e <;> cases h

theorem mainThread_skips {pc pc' : MainPlace} (h : mainThread pc m e = some (pc', m', op)) :
    op = .skip := by
  cases pc with
  | create i =>
    cases e <;> cases h
    rfl
  | join i =>
    cases e <;> try cases h
    simp only [mainThread] at h
    split at h <;> cases h
    rfl
  | returned => cases e <;> cases h

theorem program_passes {t : Thread} {pc pc' : Place t}
    (h : program v t pc m e = some (pc', m', op)) : Passes inside t pc pc' op := by
  cases t with
  | main => exact .inl ⟨mainThread_skips h, Iff.rfl⟩
  | customer => exact purchase_passes h
  | refiller => exact refill_passes h

/-- Every choice of the world. -/
def Any (t : Thread) (_ : Place t) (_ : Event) : Prop := True

theorem program_keeps (v : Version) : KeepsWhen (program v) held Any :=
  fun _ _ _ _ _ _ _ _ h => (program_passes h).keeps

theorem program_oneAtATime (v : Version) : OneAtATime (program v) held :=
  oneAtATime_of_passes fun _ _ _ _ _ _ _ => program_passes

/-! ## 2. What the mutex protects -/

/-- What was there and what was refilled is in the storage and in the car. -/
structure Books (m : Shared) : Prop where
  fuel : m.fuel = 0 ∨ m.fuel = 35
  car : 0 ≤ m.car ∧ m.car < 110
  whole : 35 ∣ m.car
  balance : m.car + m.fuel = 35 * (m.refills + 1)

/-- What holds while the mutex is free. -/
structure Rest (m : Shared) : Prop extends Books m where
  wanted : m.fuel = 35 → m.car < TANK_CAPACITY
  refillerWaits : m.wait .refiller = .waiting → m.fuel = 35
  customerWaits : m.wait .customer = .waiting → m.fuel = 0 ∧ m.car < TANK_CAPACITY

/-- The storage and the car are as they were, and nobody has begun to wait. -/
structure Calm (m m' : Shared) : Prop where
  fuel : m'.fuel = m.fuel
  car : m'.car = m.car
  refills : m'.refills = m.refills
  wait : ∀ r, m'.wait r = .waiting → m.wait r = .waiting

theorem Calm.refl (m : Shared) : Calm m m := ⟨rfl, rfl, rfl, fun _ => id⟩

theorem Books.calm (h : Books m) (hc : Calm m m') : Books m' := by
  refine ⟨?_, ?_, ?_, ?_⟩
  · rw [hc.fuel]
    exact h.fuel
  · rw [hc.car]
    exact h.car
  · rw [hc.car]
    exact h.whole
  · rw [hc.car, hc.fuel, hc.refills]
    exact h.balance

theorem Rest.calm (h : Rest m) (hc : Calm m m') : Rest m' := by
  refine ⟨h.toBooks.calm hc, ?_, fun hw => ?_, fun hw => ?_⟩
  · rw [hc.fuel, hc.car]
    exact h.wanted
  · rw [hc.fuel]
    exact h.refillerWaits (hc.wait _ hw)
  · rw [hc.fuel, hc.car]
    exact h.customerWaits (hc.wait _ hw)

theorem Calm.setWait {r : Role} {w : Wait} (hw : w ≠ .waiting) : Calm m (m.setWait r w) := by
  refine ⟨rfl, rfl, rfl, fun r' hr' => ?_⟩
  change Function.update m.wait r w r' = .waiting at hr'
  by_cases h : r' = r
  · subst h
    rw [Function.update_self] at hr'
    exact absurd hr' hw
  · rwa [Function.update_of_ne h] at hr'

theorem Calm.finish (m : Shared) (r : Role) : Calm m (m.finish r) := ⟨rfl, rfl, rfl, fun _ => id⟩

theorem finish_self (m : Shared) (r : Role) : (m.finish r).returned r = true :=
  Function.update_self ..

theorem setWait_self (m : Shared) (r : Role) (w : Wait) : (m.setWait r w).wait r = w :=
  Function.update_self ..

theorem setWait_other (m : Shared) {r r' : Role} (h : r' ≠ r) (w : Wait) :
    (m.setWait r w).wait r' = m.wait r' := Function.update_of_ne h _ _

/-- A signal changes nothing else than that somebody wakes. -/
theorem calm_signal {aim : Role} (h : signal v aim m e = some m') : Calm m m' := by
  cases e with
  | ok =>
    simp only [signal] at h
    split at h <;> cases h
    exact .refl m
  | wake r =>
    simp only [signal] at h
    split at h <;> cases h
    exact .setWait (by simp)
  | spurious => cases h

theorem Role.eq_other {r aim other : Role} (hother : other ≠ aim) (hr : r ≠ aim) : r = other := by
  cases r <;> cases aim <;> cases other <;> simp_all

/-- Whoever the signal is meant for does not wait after it, if the one who sends it does not. -/
theorem awake_signal {aim other : Role} (hother : other ≠ aim) (hw : m.wait other ≠ .waiting)
    (h : signal v aim m e = some m') : m'.wait aim ≠ .waiting := by
  cases e with
  | ok =>
    simp only [signal] at h
    split at h <;> cases h
    rename_i hlost
    have hhears : v.Hears aim aim := .inr rfl
    cases aim with
    | customer => exact fun hwait => hlost.1 ⟨hhears, hwait⟩
    | refiller => exact fun hwait => hlost.2 ⟨hhears, hwait⟩
  | wake r =>
    simp only [signal] at h
    split at h <;> cases h
    rename_i hwoken
    have hr : r = aim := by
      by_contra hne
      rw [Role.eq_other hother hne] at hwoken
      exact hw hwoken.2
    subst hr
    rw [setWait_self]
    simp
  | spurious => cases h

/-! ## 3. Assertions -/

/-- The customer has a car to fill, and does not wait. -/
def Awake (m : Shared) : Prop := m.car < TANK_CAPACITY ∧ m.wait .customer ≠ .waiting

def CustomerPlace.Knows : CustomerPlace → Shared → Prop
  | .start, m | .lock, m => Awake m
  | .testFuel, m => Rest m ∧ Awake m
  | .condWait, m => Rest m ∧ Awake m ∧ m.fuel = 0
  | .asleep, m => m.car < TANK_CAPACITY
  | .loadCar, m => Rest m ∧ Awake m ∧ m.fuel = 35
  | .loadFuel car, m => Rest m ∧ Awake m ∧ m.fuel = 35 ∧ car = m.car
  | .storeCar car fuel, m => Rest m ∧ Awake m ∧ m.fuel = 35 ∧ car = m.car ∧ fuel = 35
  -- the fuel is in the car, and still in the storage
  | .clearFuel, m => m.wait .customer ≠ .waiting ∧ m.fuel = 35 ∧ 0 ≤ m.car ∧ m.car < 110 ∧
      35 ∣ m.car ∧ m.car = 35 * (m.refills + 1)
  | .testCar, m => Books m ∧ m.wait .customer ≠ .waiting ∧ m.fuel = 0
  | .notify filled, m => Books m ∧ m.wait .customer ≠ .waiting ∧ m.fuel = 0 ∧
      filled = decide (TANK_CAPACITY ≤ m.car)
  | .unlock filled, m => Rest m ∧ m.wait .customer ≠ .waiting ∧
      filled = decide (TANK_CAPACITY ≤ m.car)
  | .returned, m => TANK_CAPACITY ≤ m.car ∧ m.returned .customer = true

def RefillerPlace.Knows : RefillerPlace → Shared → Prop
  | .start, m | .lock, m => m.wait .refiller ≠ .waiting
  | .testCar, m | .testFuel, m | .unlock, m => Rest m ∧ m.wait .refiller ≠ .waiting
  | .condWait, m => Rest m ∧ m.wait .refiller ≠ .waiting ∧ m.fuel = 35
  | .asleep, _ => True
  | .testAgain, m => Rest m ∧ m.wait .refiller ≠ .waiting ∧ (m.car < TANK_CAPACITY → m.fuel = 0)
  | .setFuel, m => Rest m ∧ m.wait .refiller ≠ .waiting ∧ m.car < TANK_CAPACITY ∧ m.fuel = 0
  | .notify, m => Books m ∧ m.wait .refiller ≠ .waiting ∧ m.car < TANK_CAPACITY ∧ m.fuel = 35
  | .leaveNotify, m | .leaveUnlock, m =>
    Rest m ∧ TANK_CAPACITY ≤ m.car ∧ m.wait .refiller ≠ .waiting
  | .returned, m => TANK_CAPACITY ≤ m.car ∧ m.returned .refiller = true

def MainPlace.Knows : MainPlace → Shared → Prop
  | .create k, m => m.created = k
  | .join _, m | .returned, m => 2 ≤ m.created

def Knows : (t : Thread) → Place t → Shared → Prop
  | .main, pc, m => MainPlace.Knows pc m
  | .customer, pc, m => CustomerPlace.Knows pc m
  | .refiller, pc, m => RefillerPlace.Knows pc m

/-! ## 4. The steps -/

/-- The customer goes to sleep because there is no fuel. -/
theorem Rest.sleepCustomer (h : Rest m) (hcar : m.car < TANK_CAPACITY) (hfuel : m.fuel = 0) :
    Rest (m.setWait .customer .waiting) := by
  refine ⟨⟨h.fuel, h.car, h.whole, h.balance⟩, h.wanted, fun hw => ?_, fun _ => ⟨hfuel, hcar⟩⟩
  rw [setWait_other m (by simp)] at hw
  exact h.refillerWaits hw

/-- The refiller goes to sleep because the storage is full. -/
theorem Rest.sleepRefiller (h : Rest m) (hfuel : m.fuel = 35) :
    Rest (m.setWait .refiller .waiting) := by
  refine ⟨⟨h.fuel, h.car, h.whole, h.balance⟩, h.wanted, fun _ => hfuel, fun hw => ?_⟩
  rw [setWait_other m (by simp)] at hw
  exact h.customerWaits hw

theorem Books.rest (h : Books m) (hwanted : m.fuel = 35 → m.car < TANK_CAPACITY)
    (hr : m.wait .refiller ≠ .waiting) (hc : m.wait .customer ≠ .waiting) : Rest m :=
  ⟨h, hwanted, fun hw => absurd hw hr, fun hw => absurd hw hc⟩

theorem Calm.awake {r : Role} (h : Calm m m') (hw : m.wait r ≠ .waiting) : m'.wait r ≠ .waiting :=
  fun hw' => hw (h.wait r hw')

/-- **A step of the customer.** -/
theorem purchase_knows {pc pc' : CustomerPlace} (hk : pc.Knows m)
    (h : purchase v pc m e = some (pc', m', op)) (hwait : op = .wait () → Rest m) :
    pc'.Knows m' ∧ (op = .post () → Rest m') := by
  cases pc with
  | start =>
    cases e <;> try cases h
    simp only [purchase] at h
    split at h <;> cases h
    exact ⟨hk, SemOp.of_skip_eq_post⟩
  | lock =>
    cases e <;> cases h
    exact ⟨⟨hwait rfl, hk⟩, SemOp.of_wait_eq_post⟩
  | testFuel =>
    cases e <;> cases h
    obtain ⟨hrest, hawake⟩ := hk
    refine ⟨?_, SemOp.of_skip_eq_post⟩
    split
    · rename_i hfuel
      exact ⟨hrest, hawake, hfuel⟩
    · rename_i hfuel
      exact ⟨hrest, hawake, hrest.fuel.resolve_left hfuel⟩
  | condWait =>
    cases e <;> cases h
    obtain ⟨hrest, hawake, hfuel⟩ := hk
    exact ⟨hawake.1, fun _ => hrest.sleepCustomer hawake.1 hfuel⟩
  | asleep =>
    cases e <;> try cases h
    · simp only [purchase] at h
      split at h <;> cases h
      refine ⟨⟨(hwait rfl).calm (.setWait (by simp)), hk, ?_⟩, SemOp.of_wait_eq_post⟩
      rw [setWait_self]
      simp
    · exact ⟨hk, SemOp.of_skip_eq_post⟩
  | loadCar =>
    cases e <;> cases h
    exact ⟨⟨hk.1, hk.2.1, hk.2.2, rfl⟩, SemOp.of_skip_eq_post⟩
  | loadFuel car =>
    cases e <;> cases h
    obtain ⟨hrest, hawake, hfuel, hcar⟩ := hk
    exact ⟨⟨hrest, hawake, hfuel, hcar, hfuel⟩, SemOp.of_skip_eq_post⟩
  | storeCar car fuel =>
    cases e <;> cases h
    obtain ⟨hrest, hawake, hfuel, rfl, rfl⟩ := hk
    have hcar := hrest.car
    have hlow : m.car < 75 := hawake.1
    have hbalance := hrest.balance
    have hwhole := hrest.whole
    have hinrange : InRange32 (m.car + 35) := by
      unfold InRange32 INT_MIN INT_MAX
      omega
    rw [wrap32_of_inRange hinrange]
    refine ⟨⟨hawake.2, hfuel, ?_, ?_, ?_, ?_⟩, SemOp.of_skip_eq_post⟩
    · show 0 ≤ m.car + 35
      omega
    · show m.car + 35 < 110
      omega
    · show 35 ∣ m.car + 35
      omega
    · show m.car + 35 = 35 * ((m.refills : Int) + 1)
      omega
  | clearFuel =>
    cases e <;> cases h
    obtain ⟨hw, -, hlow, hhigh, hwhole, hbalance⟩ := hk
    refine ⟨⟨⟨.inl rfl, ⟨hlow, hhigh⟩, hwhole, ?_⟩, hw, rfl⟩, SemOp.of_skip_eq_post⟩
    show m.car + 0 = 35 * ((m.refills : Int) + 1)
    rw [add_zero]
    exact hbalance
  | testCar =>
    cases e <;> cases h
    exact ⟨⟨hk.1, hk.2.1, hk.2.2, rfl⟩, SemOp.of_skip_eq_post⟩
  | notify filled =>
    obtain ⟨m₁, hm₁, h⟩ := Option.map_eq_some_iff.mp h
    cases h
    obtain ⟨hbooks, hw, hfuel, hfilled⟩ := hk
    have hcalm := calm_signal hm₁
    refine ⟨⟨(hbooks.calm hcalm).rest ?_ (awake_signal (by simp) hw hm₁) (hcalm.awake hw),
      hcalm.awake hw, ?_⟩, SemOp.of_skip_eq_post⟩
    · rw [hcalm.fuel, hfuel]
      simp
    · rw [hcalm.car]
      exact hfilled
  | unlock filled =>
    obtain ⟨hrest, hw, hfilled⟩ := hk
    cases filled with
    | true =>
      cases e <;> cases h
      exact ⟨⟨of_decide_eq_true hfilled.symm, finish_self m _⟩,
        fun _ => hrest.calm (.finish m _)⟩
    | false =>
      cases e <;> cases h
      exact ⟨⟨not_le.mp (of_decide_eq_false hfilled.symm), hw⟩, fun _ => hrest⟩
  | returned => cases e <;> cases h

/-- **A step of the refiller.** -/
theorem refill_knows {pc pc' : RefillerPlace} (hk : pc.Knows m)
    (h : refill v pc m e = some (pc', m', op)) (hwait : op = .wait () → Rest m) :
    pc'.Knows m' ∧ (op = .post () → Rest m') := by
  cases pc with
  | start =>
    cases e <;> try cases h
    simp only [refill] at h
    split at h <;> cases h
    exact ⟨hk, SemOp.of_skip_eq_post⟩
  | lock =>
    cases e <;> cases h
    refine ⟨?_, SemOp.of_wait_eq_post⟩
    split <;> exact ⟨hwait rfl, hk⟩
  | testCar =>
    cases e <;> cases h
    refine ⟨?_, SemOp.of_skip_eq_post⟩
    split
    · rename_i hfull
      exact ⟨hk.1, hfull, hk.2⟩
    · exact hk
  | testFuel =>
    cases e <;> cases h
    obtain ⟨hrest, hw⟩ := hk
    refine ⟨?_, SemOp.of_skip_eq_post⟩
    split
    · rename_i hfull
      refine ⟨hrest, hw, hrest.fuel.resolve_left fun h0 => ?_⟩
      have hstored : GAS_STORAGE ≤ m.fuel := hfull.1
      rw [h0] at hstored
      exact absurd hstored (by simp)
    · rename_i hfull
      refine ⟨hrest, hw, fun hcar => hrest.fuel.resolve_right fun h35 => hfull ⟨?_, fun _ => hcar⟩⟩
      exact le_of_eq h35.symm
  | condWait =>
    cases e <;> cases h
    exact ⟨trivial, fun _ => hk.1.sleepRefiller hk.2.2⟩
  | asleep =>
    cases e <;> try cases h
    · simp only [refill] at h
      split at h <;> cases h
      refine ⟨⟨(hwait rfl).calm (.setWait (by simp)), ?_⟩, SemOp.of_wait_eq_post⟩
      rw [setWait_self]
      simp
    · exact ⟨trivial, SemOp.of_skip_eq_post⟩
  | testAgain =>
    cases e <;> cases h
    obtain ⟨hrest, hw, hfuel⟩ := hk
    refine ⟨?_, SemOp.of_skip_eq_post⟩
    split
    · rename_i hfull
      exact ⟨hrest, hfull, hw⟩
    · rename_i hcar
      exact ⟨hrest, hw, not_le.mp hcar, hfuel (not_le.mp hcar)⟩
  | setFuel =>
    cases e <;> cases h
    obtain ⟨hrest, hw, hcar, hfuel⟩ := hk
    have hbalance := hrest.balance
    refine ⟨⟨⟨.inr rfl, hrest.car, hrest.whole, ?_⟩, hw, hcar, rfl⟩, SemOp.of_skip_eq_post⟩
    show m.car + 35 = 35 * (((m.refills + 1 : Nat) : Int) + 1)
    push_cast
    omega
  | notify =>
    obtain ⟨m₁, hm₁, h⟩ := Option.map_eq_some_iff.mp h
    cases h
    obtain ⟨hbooks, hw, hcar, hfuel⟩ := hk
    have hcalm := calm_signal hm₁
    refine ⟨⟨(hbooks.calm hcalm).rest (fun _ => ?_) (hcalm.awake hw)
      (awake_signal (by simp) hw hm₁), hcalm.awake hw⟩, SemOp.of_skip_eq_post⟩
    rw [hcalm.car]
    exact hcar
  | unlock =>
    cases e <;> cases h
    exact ⟨hk.2, fun _ => hk.1⟩
  | leaveNotify =>
    obtain ⟨m₁, hm₁, h⟩ := Option.map_eq_some_iff.mp h
    cases h
    have hcalm := calm_signal hm₁
    refine ⟨⟨hk.1.calm hcalm, ?_, hcalm.awake hk.2.2⟩, SemOp.of_skip_eq_post⟩
    rw [hcalm.car]
    exact hk.2.1
  | leaveUnlock =>
    cases e <;> cases h
    exact ⟨⟨hk.2.1, finish_self m _⟩, fun _ => hk.1.calm (.finish m _)⟩
  | returned => cases e <;> cases h

theorem mainThread_knows {pc pc' : MainPlace} (hk : pc.Knows m)
    (h : mainThread pc m e = some (pc', m', op)) : pc'.Knows m' := by
  cases pc with
  | create k =>
    cases e <;> cases h
    split
    · exact rfl
    · rename_i hlast
      exact not_lt.mp hlast
  | join k =>
    cases e <;> try cases h
    simp only [mainThread] at h
    split at h <;> cases h
    split <;> exact hk
  | returned => cases e <;> cases h

/-! ## 5. Inside nobody waits -/

theorem CustomerPlace.Knows.awake {pc : CustomerPlace} (hk : pc.Knows m) (hin : pc.inside) :
    m.wait .customer ≠ .waiting := by
  cases pc with
  | testFuel => exact hk.2.2
  | condWait | loadCar | loadFuel car | storeCar car fuel => exact hk.2.1.2
  | clearFuel => exact hk.1
  | testCar | notify filled | unlock filled => exact hk.2.1
  | start | lock | asleep | returned => exact absurd hin id

theorem RefillerPlace.Knows.awake {pc : RefillerPlace} (hk : pc.Knows m) (hin : pc.inside) :
    m.wait .refiller ≠ .waiting := by
  cases pc with
  | testCar | testFuel | unlock => exact hk.2
  | condWait | testAgain | setFuel | notify => exact hk.2.1
  | leaveNotify | leaveUnlock => exact hk.2.2
  | start | lock | asleep | returned => exact absurd hin id

end OneCar
end Labs
