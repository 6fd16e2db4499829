import Labs.OneCar.Mutex

/-!
# The customer is served

What a step does to the others and how much less there is to do after it is said once for each
thread (`Effect`). The invariant and the measure follow from that.

The comments of `cond_wait_signal_1.c` expect both threads to wait for each other at times, since
they use one condition. They do not: with the mutex free the refiller waits only with a full
storage, and the customer only with an empty one. So every run ends, in all three versions, and it
ends with a car of 105, an empty storage and two refills.

## One statement for each thread

Three things are asked of a step of one thread: what it leaves of the memory, which the invariant
needs; how far it raises the ranks of the others, and that its own falls, which the measure needs.
They come from the same cases, so the cases are gone through once, and `knows_stable` and `left_lt`
never look at a place of the thread that moves.

The measure has two parts. `tradeLeft` counts the purchases and refills that can still happen, each
of them with a weight that is more than a thread needs to come round again. Below that, `rank`
counts the steps to the next one. A signal wakes another thread and so raises its rank; `calls` is
what that costs, and the thread that signals pays for it. A spurious wake-up is the only step that
nobody pays for. So the length of a run is bounded by the measure at its start and a fixed amount
for each spurious wake-up, and no fairness is asked.

Whose signal it is makes no difference: `Effect.signal` has the role it is aimed at as a parameter,
and covers the versions with one condition variable and with two, since the role that signals never
waits at that time.
-/

namespace Labs
namespace OneCar

open Lib
open GasStation (GAS_STORAGE TANK_CAPACITY Wait wake_ne_waiting purchasesLeft purchasesLeft_fill)

variable {v : Version} {m m' : Shared} {op : SemOp Unit} {e : Event}

/-! ## 1. What is left to do -/

/-- A purchase counts twice: there is a refill between it and the next one. -/
def tradeLeft (m : Shared) : Nat := 2 * purchasesLeft m.car + if m.fuel = 35 then 0 else 1

def CustomerPlace.left : CustomerPlace → Wait → Nat
  | .start, _ | .unlock _, _ => 6
  | .lock, _ => 5
  | .testFuel, _ => 4
  | .condWait, _ | .loadFuel _, _ => 2
  | .asleep, .waiting | .storeCar _ _, _ => 1
  | .asleep, _ => 5
  | .loadCar, _ => 3
  -- the car is full and the storage is not yet empty
  | .clearFuel, _ => 17 + 17
  | .testCar, _ => 16
  | .notify _, _ => 15
  | .returned, _ => 0

def RefillerPlace.left : RefillerPlace → Wait → Nat
  | .start, _ | .unlock, _ => 11
  | .lock, _ => 10
  | .testCar, _ => 9
  | .testFuel, _ => 8
  | .condWait, _ => 2
  | .asleep, .waiting | .setFuel, _ | .leaveUnlock, _ => 1
  | .asleep, _ => 9
  | .testAgain, _ => 7
  | .notify, _ => 16
  | .leaveNotify, _ => 6
  | .returned, _ => 0

def MainPlace.left : MainPlace → Nat
  | .create i => (2 - i) + 4
  | .join i => (2 - i) + 1
  | .returned => 0

/-- The steps of a thread up to where it buys, refills, sleeps or leaves. -/
def rank : (t : Thread) → Place t → Shared → Nat
  | .main, pc, _ => MainPlace.left pc
  | .customer, pc, m => CustomerPlace.left pc (m.wait .customer)
  | .refiller, pc, m => RefillerPlace.left pc (m.wait .refiller)

def left (s : State) : Nat :=
  rank .main (s.pc .main) s.mem + rank .customer (s.pc .customer) s.mem +
    rank .refiller (s.pc .refiller) s.mem + 17 * tradeLeft s.mem

/-- What a signal from this place adds to the thread that it wakes. -/
def calls : (t : Thread) → Place t → Nat
  | .customer, .notify _ => 8
  | .refiller, .notify | .refiller, .leaveNotify => 4
  | _, _ => 0

def Event.isSpurious : Event → Bool
  | .spurious => true
  | _ => false

def costOf (e : Event) : Nat := if e.isSpurious then 9 else 0

def Role.thread : Role → Thread
  | .customer => .customer
  | .refiller => .refiller

/-- What waking up adds to a thread. -/
def Role.raise : Role → Nat
  | .customer => 4
  | .refiller => 8

/-! ## 2. What a step does -/

theorem finish_stays {r r' : Role} (h : m.returned r = true) : (m.finish r').returned r = true := by
  by_cases hr : r = r'
  · rw [hr]
    exact finish_self m r'
  · exact (Function.update_of_ne hr _ _).trans h

structure Effect (t : Thread) (pc pc' : Place t) (m m' : Shared) (e : Event) : Prop where
  calm : ¬ inside t pc → Calm m m'
  car : t ≠ .customer → m'.car = m.car
  grows : m.car ≤ m'.car
  wait : ∀ r, t ≠ r.thread → m'.wait r = .waiting → m.wait r = .waiting
  returned : ∀ r, m.returned r = true → m'.returned r = true
  created : t ≠ .main → m'.created = m.created
  others : ∀ u, u ≠ t → ∀ at_u, rank u at_u m' ≤ rank u at_u m + calls t pc
  own : rank t pc' m' + calls t pc + 17 * tradeLeft m' <
    rank t pc m + 17 * tradeLeft m + costOf e

variable {t : Thread} {pc pc' : Place t}

/-- A step that changes nothing but the place. -/
theorem Effect.still (hless : rank t pc' m + calls t pc < rank t pc m) :
    Effect t pc pc' m m e := by
  refine ⟨fun _ => .refl m, fun _ => rfl, le_refl _, fun _ _ => id, fun _ => id,
    fun _ => rfl, fun _ _ _ => Nat.le_add_right _ _, ?_⟩
  omega

theorem rank_setWait {u : Thread} {r : Role} (hu : u ≠ r.thread) (w : Wait) (at_u : Place u) :
    rank u at_u (m.setWait r w) = rank u at_u m := by
  cases u with
  | main => rfl
  | customer =>
    cases r with
    | customer => exact absurd rfl hu
    | refiller =>
      have hwait : (m.setWait .refiller w).wait .customer = m.wait .customer :=
        setWait_other m (by simp) w
      simp only [rank, hwait]
  | refiller =>
    cases r with
    | customer =>
      have hwait : (m.setWait .customer w).wait .refiller = m.wait .refiller :=
        setWait_other m (by simp) w
      simp only [rank, hwait]
    | refiller => exact absurd rfl hu

/-- A thread goes to sleep or wakes up. -/
theorem Effect.setWait {r : Role} {w : Wait} (ht : t = r.thread)
    (hcalm : ¬ inside t pc → w ≠ .waiting)
    (hless : rank t pc' (m.setWait r w) + calls t pc < rank t pc m + costOf e) :
    Effect t pc pc' m (m.setWait r w) e := by
  refine ⟨fun hout => .setWait (hcalm hout), fun _ => rfl, le_refl _, fun r' hr' hw => ?_,
    fun _ => id, fun _ => rfl, fun u hu at_u => ?_, ?_⟩
  · have hne : r' ≠ r := by
      intro heq
      rw [heq] at hr'
      exact hr' ht
    rwa [setWait_other m hne] at hw
  · rw [rank_setWait (ht ▸ hu)]
    exact Nat.le_add_right _ _
  · have htrade : tradeLeft (m.setWait r w) = tradeLeft m := rfl
    rw [htrade]
    omega

theorem rank_wake (u : Thread) {r : Role} (hu : u = r.thread) (at_u : Place u)
    (hw : m.wait r = .waiting) :
    rank u at_u (m.setWait r .woken) ≤ rank u at_u m + r.raise := by
  subst hu
  cases r with
  | customer =>
    change CustomerPlace at at_u
    show CustomerPlace.left at_u ((m.setWait .customer .woken).wait .customer) ≤
      CustomerPlace.left at_u (m.wait .customer) + 4
    rw [setWait_self, hw]
    cases at_u <;> simp [CustomerPlace.left]
  | refiller =>
    change RefillerPlace at at_u
    show RefillerPlace.left at_u ((m.setWait .refiller .woken).wait .refiller) ≤
      RefillerPlace.left at_u (m.wait .refiller) + 8
    rw [setWait_self, hw]
    cases at_u <;> simp [RefillerPlace.left]

/-- A signal of a thread that does not wait. -/
theorem Effect.signal {aim : Role} (other : Role) (hother : other ≠ aim)
    (hw : m.wait other ≠ .waiting)
    (hcalls : calls t pc = aim.raise)
    (hless : ∀ m', rank t pc' m' + calls t pc < rank t pc m)
    (h : OneCar.signal v aim m e = some m') : Effect t pc pc' m m' e := by
  have hcalm := calm_signal h
  have htrade : tradeLeft m' = tradeLeft m := by
    simp only [tradeLeft, hcalm.car, hcalm.fuel]
  have hkept : m'.returned = m.returned ∧ m'.created = m.created ∧
      ∀ u, u ≠ t → ∀ at_u, rank u at_u m' ≤ rank u at_u m + calls t pc := by
    cases e with
    | ok =>
      simp only [OneCar.signal] at h
      split at h <;> cases h
      exact ⟨rfl, rfl, fun _ _ _ => Nat.le_add_right _ _⟩
    | wake r =>
      simp only [OneCar.signal] at h
      split at h <;> cases h
      rename_i hwoken
      have hr : r = aim := by
        by_contra hne
        rw [Role.eq_other hother hne] at hwoken
        exact hw hwoken.2
      subst hr
      refine ⟨rfl, rfl, fun u _ at_u => ?_⟩
      by_cases hur : u = r.thread
      · rw [hcalls]
        exact rank_wake u hur at_u hwoken.2
      · rw [rank_setWait hur]
        exact Nat.le_add_right _ _
    | spurious => cases h
  refine ⟨fun _ => hcalm, fun _ => hcalm.car, le_of_eq hcalm.car.symm, fun r _ => hcalm.wait r, fun r hr => ?_,
    fun _ => hkept.2.1, hkept.2.2, ?_⟩
  · rw [hkept.1]
    exact hr
  · have hown := hless m'
    rw [htrade]
    omega

theorem tradeLeft_fill (h : m.car < TANK_CAPACITY) :
    tradeLeft (m.setCar (m.car + 35)) + 2 = tradeLeft m := by
  have hone := purchasesLeft_fill h
  have hfilled : tradeLeft (m.setCar (m.car + 35)) =
      2 * purchasesLeft (m.car + 35) + if m.fuel = 35 then 0 else 1 := rfl
  rw [hfilled, tradeLeft]
  omega

theorem tradeLeft_clearFuel (m : Shared) : tradeLeft (m.setFuel 0) ≤ tradeLeft m + 1 := by
  have hempty : tradeLeft (m.setFuel 0) = 2 * purchasesLeft m.car + 1 := by
    simp [tradeLeft, Shared.setFuel]
  rw [hempty, tradeLeft]
  omega

theorem tradeLeft_refill (h : m.fuel = 0) : tradeLeft m.refill + 1 = tradeLeft m := by
  simp [tradeLeft, Shared.refill, h]

theorem purchase_effect {pc pc' : CustomerPlace} (hk : pc.Knows m)
    (h : purchase v pc m e = some (pc', m', op)) : Effect .customer pc pc' m m' e := by
  cases pc with
  | start =>
    cases e <;> try cases h
    simp only [purchase] at h
    split at h <;> cases h
    exact .still (by simp [rank, calls, CustomerPlace.left])
  | lock =>
    cases e <;> cases h
    exact .still (by simp [rank, calls, CustomerPlace.left])
  | testFuel =>
    cases e <;> cases h
    split <;> exact .still (by simp [rank, calls, CustomerPlace.left])
  | condWait =>
    cases e <;> cases h
    refine .setWait (r := .customer) rfl (fun hout => absurd trivial hout) ?_
    simp only [rank, setWait_self]
    simp [calls, CustomerPlace.left, costOf, Event.isSpurious]
  | asleep =>
    cases e <;> try cases h
    · simp only [purchase] at h
      split at h <;> cases h
      rename_i hawake
      refine .setWait (r := .customer) rfl (fun _ => by simp) ?_
      simp only [rank, setWait_self]
      cases hw : m.wait .customer with
      | waiting => exact absurd hw hawake
      | out | woken => simp [calls, CustomerPlace.left, costOf, Event.isSpurious]
    · refine .setWait (r := .customer) rfl (fun _ => wake_ne_waiting _) ?_
      simp only [rank, setWait_self]
      cases m.wait .customer <;> simp [calls, CustomerPlace.left, Wait.wake, costOf,
        Event.isSpurious]
  | loadCar | loadFuel car | testCar =>
    cases e <;> cases h
    exact .still (by simp [rank, calls, CustomerPlace.left])
  | storeCar car fuel =>
    cases e <;> cases h
    obtain ⟨hrest, hawake, -, rfl, rfl⟩ := hk
    have hcar := hrest.car
    have hinrange : InRange32 (m.car + 35) := by
      unfold InRange32 INT_MIN INT_MAX
      omega
    rw [wrap32_of_inRange hinrange]
    refine ⟨fun hout => absurd trivial hout,
      fun hne => absurd rfl hne, ?_, fun _ _ => id, fun _ => id, fun _ => rfl,
      fun u hu at_u => ?_, ?_⟩
    · show m.car ≤ m.car + 35
      omega
    · cases u <;> exact Nat.le_add_right _ _
    · rw [← tradeLeft_fill hawake.1]
      simp only [rank, calls, CustomerPlace.left]
      omega
  | clearFuel =>
    cases e <;> cases h
    have htrade := tradeLeft_clearFuel m
    refine ⟨fun hout => absurd trivial hout, fun _ => rfl,
      le_refl _, fun _ _ => id, fun _ => id, fun _ => rfl, fun u hu at_u => ?_, ?_⟩
    · cases u <;> exact Nat.le_add_right _ _
    · simp only [rank, calls, CustomerPlace.left]
      omega
  | notify filled =>
    obtain ⟨m₁, hm₁, h⟩ := Option.map_eq_some_iff.mp h
    cases h
    exact .signal .customer (by simp) hk.2.1 rfl
      (fun m' => by simp [rank, calls, CustomerPlace.left]) hm₁
  | unlock filled =>
    cases filled with
    | true =>
      cases e <;> cases h
      refine ⟨fun _ => .finish m _, fun _ => rfl,
        le_refl _, fun _ _ => id, fun r hr => ?_, fun _ => rfl, fun u hu at_u => ?_, ?_⟩
      · exact finish_stays hr
      · cases u <;> exact Nat.le_add_right _ _
      · have htrade : tradeLeft (m.finish .customer) = tradeLeft m := rfl
        rw [htrade]
        simp only [rank, calls, CustomerPlace.left]
        omega
    | false =>
      cases e <;> cases h
      exact .still (by simp [rank, calls, CustomerPlace.left])
  | returned => cases e <;> cases h

theorem refill_effect {pc pc' : RefillerPlace} (hk : pc.Knows m)
    (h : refill v pc m e = some (pc', m', op)) : Effect .refiller pc pc' m m' e := by
  cases pc with
  | start =>
    cases e <;> try cases h
    simp only [refill] at h
    split at h <;> cases h
    exact .still (by simp [rank, calls, RefillerPlace.left])
  | lock =>
    cases e <;> cases h
    split <;> exact .still (by simp [rank, calls, RefillerPlace.left])
  | testCar | testFuel | testAgain =>
    cases e <;> cases h
    split <;> exact .still (by simp [rank, calls, RefillerPlace.left])
  | condWait =>
    cases e <;> cases h
    refine .setWait (r := .refiller) rfl (fun hout => absurd trivial hout) ?_
    simp only [rank, setWait_self]
    simp [calls, RefillerPlace.left, costOf, Event.isSpurious]
  | asleep =>
    cases e <;> try cases h
    · simp only [refill] at h
      split at h <;> cases h
      rename_i hawake
      refine .setWait (r := .refiller) rfl (fun _ => by simp) ?_
      simp only [rank, setWait_self]
      cases hw : m.wait .refiller with
      | waiting => exact absurd hw hawake
      | out | woken => simp [calls, RefillerPlace.left, costOf, Event.isSpurious]
    · refine .setWait (r := .refiller) rfl (fun _ => wake_ne_waiting _) ?_
      simp only [rank, setWait_self]
      cases m.wait .refiller <;> simp [calls, RefillerPlace.left, Wait.wake, costOf,
        Event.isSpurious]
  | setFuel =>
    cases e <;> cases h
    have htrade := tradeLeft_refill hk.2.2.2
    refine ⟨fun hout => absurd trivial hout, fun _ => rfl,
      le_refl _, fun _ _ => id, fun _ => id, fun _ => rfl, fun u hu at_u => ?_, ?_⟩
    · cases u <;> exact Nat.le_add_right _ _
    · simp only [rank, calls, RefillerPlace.left]
      omega
  | notify =>
    obtain ⟨m₁, hm₁, h⟩ := Option.map_eq_some_iff.mp h
    cases h
    exact .signal .refiller (by simp) hk.2.1 rfl
      (fun m' => by simp [rank, calls, RefillerPlace.left]) hm₁
  | leaveNotify =>
    obtain ⟨m₁, hm₁, h⟩ := Option.map_eq_some_iff.mp h
    cases h
    exact .signal .refiller (by simp) hk.2.2 rfl
      (fun m' => by simp [rank, calls, RefillerPlace.left]) hm₁
  | unlock =>
    cases e <;> cases h
    exact .still (by simp [rank, calls, RefillerPlace.left])
  | leaveUnlock =>
    cases e <;> cases h
    refine ⟨fun _ => .finish m _, fun _ => rfl,
      le_refl _, fun _ _ => id, fun r hr => ?_, fun _ => rfl, fun u hu at_u => ?_, ?_⟩
    · exact finish_stays hr
    · cases u <;> exact Nat.le_add_right _ _
    · have htrade : tradeLeft (m.finish .refiller) = tradeLeft m := rfl
      rw [htrade]
      simp only [rank, calls, RefillerPlace.left]
      omega
  | returned => cases e <;> cases h

theorem mainThread_effect {pc pc' : MainPlace} (h : mainThread pc m e = some (pc', m', op)) :
    Effect .main pc pc' m m' e := by
  cases pc with
  | create i =>
    cases e <;> cases h
    refine ⟨fun _ => ⟨rfl, rfl, rfl, fun _ => id⟩, fun _ => rfl, le_refl _,
      fun _ _ => id, fun _ => id, fun hne => absurd rfl hne, fun u hu at_u => ?_, ?_⟩
    · cases u <;> exact Nat.le_add_right _ _
    · have htrade : tradeLeft { m with created := i + 1 } = tradeLeft m := rfl
      rw [htrade]
      split <;> simp only [rank, calls, MainPlace.left] <;> omega
  | join i =>
    cases e <;> try cases h
    simp only [mainThread] at h
    split at h <;> cases h
    refine .still ?_
    split <;> simp only [rank, calls, MainPlace.left] <;> omega
  | returned => cases e <;> cases h

/-- **Every step**, once for all. -/
theorem program_effect (hk : Knows t pc m) (h : program v t pc m e = some (pc', m', op)) :
    Effect t pc pc' m m' e := by
  cases t with
  | main => exact mainThread_effect h
  | customer => exact purchase_effect hk h
  | refiller => exact refill_effect hk h

/-! ## 3. The invariant -/

/-- **The step of another thread** leaves what a thread knows. -/
theorem knows_stable {u : Thread} {at_u : Place u} (hne : u ≠ t)
    (heffect : Effect t pc pc' m m' e) (hapart : inside t pc → ¬ inside u at_u)
    (hu : Knows u at_u m) : Knows u at_u m' := by
  have hfull : TANK_CAPACITY ≤ m.car → TANK_CAPACITY ≤ m'.car :=
    fun h => le_trans h heffect.grows
  cases u with
  | main =>
    change MainPlace at at_u
    have hcreated := heffect.created hne.symm
    cases at_u with
    | create k => exact hcreated.trans hu
    | join k | returned =>
      show 2 ≤ m'.created
      rw [hcreated]
      exact hu
  | customer =>
    change CustomerPlace at at_u
    have hcar := heffect.car hne.symm
    have hawake : Awake m → Awake m' := by
      rintro ⟨hlt, hw⟩
      refine ⟨?_, fun hw' => hw (heffect.wait .customer hne.symm hw')⟩
      rw [hcar]
      exact hlt
    have hwait : m.wait .customer ≠ .waiting → m'.wait .customer ≠ .waiting :=
      fun hw hw' => hw (heffect.wait .customer hne.symm hw')
    have hcalm : CustomerPlace.inside at_u → Calm m m' :=
      fun hin => heffect.calm fun ht => hapart ht hin
    cases at_u with
    | start | lock => exact hawake hu
    | asleep =>
      show m'.car < TANK_CAPACITY
      rw [hcar]
      exact hu
    | returned => exact ⟨hfull hu.1, heffect.returned _ hu.2⟩
    | testFuel => exact ⟨hu.1.calm (hcalm trivial), hawake hu.2⟩
    | condWait | loadCar =>
      have hc := hcalm trivial
      exact ⟨hu.1.calm hc, hawake hu.2.1, hc.fuel.trans hu.2.2⟩
    | loadFuel car =>
      have hc := hcalm trivial
      obtain ⟨hrest, ha, hfuel, hload⟩ := hu
      exact ⟨hrest.calm hc, hawake ha, hc.fuel.trans hfuel, hload.trans hc.car.symm⟩
    | storeCar car fuel =>
      have hc := hcalm trivial
      obtain ⟨hrest, ha, hfuel, hload, hfuel'⟩ := hu
      exact ⟨hrest.calm hc, hawake ha, hc.fuel.trans hfuel, hload.trans hc.car.symm, hfuel'⟩
    | clearFuel =>
      have hc := hcalm trivial
      obtain ⟨hw, hfuel, hcars⟩ := hu
      refine ⟨hwait hw, hc.fuel.trans hfuel, ?_⟩
      rw [hc.car, hc.refills]
      exact hcars
    | testCar =>
      have hc := hcalm trivial
      exact ⟨hu.1.calm hc, hwait hu.2.1, hc.fuel.trans hu.2.2⟩
    | notify filled =>
      have hc := hcalm trivial
      obtain ⟨hbooks, hw, hfuel, hfilled⟩ := hu
      refine ⟨hbooks.calm hc, hwait hw, hc.fuel.trans hfuel, ?_⟩
      rw [hc.car]
      exact hfilled
    | unlock filled =>
      have hc := hcalm trivial
      obtain ⟨hrest, hw, hfilled⟩ := hu
      refine ⟨hrest.calm hc, hwait hw, ?_⟩
      rw [hc.car]
      exact hfilled
  | refiller =>
    change RefillerPlace at at_u
    have hwait : m.wait .refiller ≠ .waiting → m'.wait .refiller ≠ .waiting :=
      fun hw hw' => hw (heffect.wait .refiller hne.symm hw')
    have hcalm : RefillerPlace.inside at_u → Calm m m' :=
      fun hin => heffect.calm fun ht => hapart ht hin
    cases at_u with
    | start | lock => exact hwait hu
    | asleep => exact trivial
    | returned => exact ⟨hfull hu.1, heffect.returned _ hu.2⟩
    | testCar | testFuel | unlock => exact ⟨hu.1.calm (hcalm trivial), hwait hu.2⟩
    | condWait =>
      have hc := hcalm trivial
      exact ⟨hu.1.calm hc, hwait hu.2.1, hc.fuel.trans hu.2.2⟩
    | testAgain =>
      have hc := hcalm trivial
      obtain ⟨hrest, hw, hfuel⟩ := hu
      refine ⟨hrest.calm hc, hwait hw, ?_⟩
      rw [hc.car, hc.fuel]
      exact hfuel
    | setFuel =>
      have hc := hcalm trivial
      obtain ⟨hrest, hw, hcar, hfuel⟩ := hu
      refine ⟨hrest.calm hc, hwait hw, ?_, hc.fuel.trans hfuel⟩
      rw [hc.car]
      exact hcar
    | notify =>
      have hc := hcalm trivial
      obtain ⟨hbooks, hw, hcar, hfuel⟩ := hu
      refine ⟨hbooks.calm hc, hwait hw, ?_, hc.fuel.trans hfuel⟩
      rw [hc.car]
      exact hcar
    | leaveNotify | leaveUnlock =>
      exact ⟨hu.1.calm (hcalm trivial), hfull hu.2.1, hwait hu.2.2⟩

def Inv (s : State) : Prop := Guarded held (fun _ => Rest) Knows s

theorem inv_init : Inv init := by
  refine ⟨.initial (fun t => heldInside_of_outside ?_) fun _ => rfl, fun _ _ => ?_, fun t => ?_⟩
  · cases t <;> exact id
  · refine ⟨⟨.inr rfl, by simp [init], by simp [init], by simp [init]⟩, fun _ => ?_, nofun, nofun⟩
    simp [init]
  · cases t with
    | main => exact rfl
    | customer => exact ⟨by simp [init], nofun⟩
    | refiller => exact nofun

theorem inv_step (s : State) (a : Thread × Event) (s' : State) (h : Inv s)
    (hstep : step v s a = some s') : Inv s' := by
  obtain ⟨t, e⟩ := a
  refine Guarded.step h (program_keeps v) trivial ?_ ?_ ?_ hstep
  · intro pc m op hnext hwait
    cases t with
    | main =>
      refine ⟨mainThread_knows (h.knows .main) hnext, fun x hx => ?_⟩
      rw [mainThread_skips hnext] at hx
      cases hx
    | customer =>
      obtain ⟨hknows, hpost⟩ := purchase_knows (h.knows .customer) hnext (hwait ())
      exact ⟨hknows, fun _ hx => hpost hx⟩
    | refiller =>
      obtain ⟨hknows, hpost⟩ := refill_knows (h.knows .refiller) hnext (hwait ())
      exact ⟨hknows, fun _ hx => hpost hx⟩
  · intro x pc m op hnext hout hrest
    exact hrest.calm ((program_effect (h.knows t) hnext).calm hout)
  · intro u pc m op hne hnext hapart hu
    exact knows_stable hne (program_effect (h.knows t) hnext) (fun hp hq => hapart () hp hq) hu

/-- A step leaves less to do, unless it is a spurious wake-up. -/
theorem left_lt {s s' : State} (hinv : Inv s) (hstep : step v s (t, e) = some s') :
    left s' < left s + costOf e := by
  obtain ⟨pc, m, op, sem, hnext, -, rfl⟩ := Sys.step_cases hstep
  have heffect := program_effect (hinv.knows t) hnext
  have hown := heffect.own
  have hother : ∀ u, u ≠ t →
      rank u (Function.update s.pc t pc u) m ≤ rank u (s.pc u) s.mem + calls t (s.pc t) := by
    intro u hu
    rw [Function.update_of_ne hu]
    exact heffect.others u hu _
  have hself : Function.update s.pc t pc t = pc := Function.update_self ..
  have hmain : ∀ pcs : (u : Thread) → Place u, rank .main (pcs .main) m =
      rank .main (pcs .main) s.mem := fun _ => rfl
  simp only [left]
  cases t with
  | main =>
    have hquiet : calls .main (s.pc .main) = 0 := rfl
    have hcustomer := hother .customer (by simp)
    have hrefiller := hother .refiller (by simp)
    rw [hself]
    omega
  | customer =>
    have hrefiller := hother .refiller (by simp)
    have hstill : Function.update s.pc .customer pc .main = s.pc .main :=
      Function.update_of_ne (by simp) _ _
    rw [hself, hmain, hstill]
    omega
  | refiller =>
    have hcustomer := hother .customer (by simp)
    have hstill : Function.update s.pc .refiller pc .main = s.pc .main :=
      Function.update_of_ne (by simp) _ _
    rw [hself, hmain, hstill]
    omega

theorem inv_of_reaches {s : State} (h : Reaches (step v) (fun _ _ => True) init s) : Inv s :=
  h.invariant inv_init fun s a s' hs _ hstep => inv_step s a s' hs hstep

/-! ## 4. Somebody can go on -/

/-- The thread has returned. -/
def Returned : (t : Thread) → Place t → Prop
  | .main, pc => pc = .returned
  | .customer, pc => pc = .returned
  | .refiller, pc => pc = .returned

def NotSpurious (t : Thread) (_ : Place t) (e : Event) : Prop := e ≠ .spurious

/-- A step of the thread, and not just a spurious wake-up. -/
def CanStep (v : Version) (s : State) (t : Thread) : Prop :=
  ∃ e, e ≠ .spurious ∧ (step v s (t, e)).isSome

theorem exists_signal (v : Version) (aim : Role) (m : Shared) :
    ∃ e m', e ≠ .spurious ∧ signal v aim m e = some m' := by
  by_cases hcustomer : v.Hears aim .customer ∧ m.wait .customer = .waiting
  · exact ⟨.wake .customer, _, by simp, if_pos hcustomer⟩
  · by_cases hrefiller : v.Hears aim .refiller ∧ m.wait .refiller = .waiting
    · exact ⟨.wake .refiller, _, by simp, if_pos hrefiller⟩
    · exact ⟨.ok, _, by simp, if_pos ⟨hcustomer, hrefiller⟩⟩

/-- What the thread needs to move, besides the mutex. -/
def Moves (s : State) : Thread → Prop
  | .main => s.pc .main ≠ MainPlace.returned ∧
      ∀ i, s.pc .main = MainPlace.join i → s.mem.gone i = true
  | .customer => s.pc .customer ≠ CustomerPlace.returned ∧
      (s.pc .customer = CustomerPlace.start → 0 < s.mem.created) ∧
      (s.pc .customer = CustomerPlace.asleep → s.mem.wait .customer ≠ .waiting)
  | .refiller => s.pc .refiller ≠ RefillerPlace.returned ∧
      (s.pc .refiller = RefillerPlace.start → 1 < s.mem.created) ∧
      (s.pc .refiller = RefillerPlace.asleep → s.mem.wait .refiller ≠ .waiting)

theorem Moves.enabled {s : State} (h : Moves s t) :
    ∃ e r, e ≠ .spurious ∧ program v t (s.pc t) s.mem e = some r := by
  cases t with
  | main =>
    obtain ⟨hret, hjoin⟩ := h
    show ∃ e r, e ≠ .spurious ∧ mainThread (s.pc .main) s.mem e = some r
    generalize s.pc .main = pc at hret hjoin
    change MainPlace at pc
    cases pc with
    | create i => exact ⟨.ok, _, by simp, rfl⟩
    | join i => exact ⟨.ok, _, by simp, if_pos (hjoin i rfl)⟩
    | returned => exact absurd rfl hret
  | customer =>
    obtain ⟨hret, hstart, hawake⟩ := h
    show ∃ e r, e ≠ .spurious ∧ purchase v (s.pc .customer) s.mem e = some r
    generalize s.pc .customer = pc at hret hstart hawake
    change CustomerPlace at pc
    cases pc with
    | start => exact ⟨.ok, _, by simp, if_pos (hstart rfl)⟩
    | asleep => exact ⟨.ok, _, by simp, if_neg (hawake rfl)⟩
    | notify filled =>
      obtain ⟨e, m', he, hm'⟩ := exists_signal v .refiller s.mem
      exact ⟨e, _, he, Option.map_eq_some_iff.mpr ⟨m', hm', rfl⟩⟩
    | unlock filled => cases filled <;> exact ⟨.ok, _, by simp, rfl⟩
    | returned => exact absurd rfl hret
    | _ => exact ⟨.ok, _, by simp, rfl⟩
  | refiller =>
    obtain ⟨hret, hstart, hawake⟩ := h
    show ∃ e r, e ≠ .spurious ∧ refill v (s.pc .refiller) s.mem e = some r
    generalize s.pc .refiller = pc at hret hstart hawake
    change RefillerPlace at pc
    cases pc with
    | start => exact ⟨.ok, _, by simp, if_pos (hstart rfl)⟩
    | asleep => exact ⟨.ok, _, by simp, if_neg (hawake rfl)⟩
    | notify | leaveNotify =>
      obtain ⟨e, m', he, hm'⟩ := exists_signal v .customer s.mem
      exact ⟨e, _, he, Option.map_eq_some_iff.mpr ⟨m', hm', rfl⟩⟩
    | returned => exact absurd rfl hret
    | _ => exact ⟨.ok, _, by simp, rfl⟩

theorem moves_of_inside {s : State} (h : inside t (s.pc t)) : Moves s t := by
  cases t with
  | main => exact absurd h id
  | customer =>
    change CustomerPlace.inside (s.pc .customer) at h
    refine ⟨fun hpc => ?_, fun hpc => ?_, fun hpc => ?_⟩ <;> rw [hpc] at h <;> exact absurd h id
  | refiller =>
    change RefillerPlace.inside (s.pc .refiller) at h
    refine ⟨fun hpc => ?_, fun hpc => ?_, fun hpc => ?_⟩ <;> rw [hpc] at h <;> exact absurd h id

/-- With the mutex free and both threads started: the refiller waits for the customer, or the
    customer for the refiller, and not both. -/
theorem exists_moves_of_rest {s : State} (h : Inv s) (hrest : Rest s.mem)
    (hcreated : 2 ≤ s.mem.created)
    (hun : ¬ (s.pc .customer = CustomerPlace.returned ∧
      s.pc .refiller = RefillerPlace.returned)) : ∃ t, Moves s t := by
  have hcustomer : CustomerPlace.Knows (s.pc .customer) s.mem := h.knows .customer
  have hrefiller : RefillerPlace.Knows (s.pc .refiller) s.mem := h.knows .refiller
  by_cases hc : s.pc .customer ≠ CustomerPlace.returned ∧ s.mem.wait .customer ≠ .waiting
  · exact ⟨.customer, hc.1, fun _ => by omega, fun _ => hc.2⟩
  · refine ⟨.refiller, fun hgone => ?_, fun _ => by omega, fun _ hw => ?_⟩
    · rw [hgone] at hrefiller
      refine hc ⟨fun hret => hun ⟨hret, hgone⟩, fun hw => ?_⟩
      exact absurd (hrest.customerWaits hw).2 (not_lt.mpr hrefiller.1)
    · have hfuel := hrest.refillerWaits hw
      refine hc ⟨fun hret => ?_, fun hw' => ?_⟩
      · rw [hret] at hcustomer
        exact absurd (hrest.wanted hfuel) (not_lt.mpr hcustomer.1)
      · rw [(hrest.customerWaits hw').1] at hfuel
        cases hfuel

theorem exists_moves {s : State} (h : Inv s) (hun : ∃ t, ¬ Returned t (s.pc t)) :
    ∃ t, Moves s t := by
  rcases h.locked.locks.binary () with h0 | h1
  · obtain ⟨t, ht⟩ := h.locked.owned () h0
    exact ⟨t, moves_of_inside ht⟩
  · have hrest : Rest s.mem := h.free () (by rw [h1]; exact Int.one_pos)
    have hmain : MainPlace.Knows (s.pc .main) s.mem := h.knows .main
    by_cases hall : s.pc .customer = CustomerPlace.returned ∧
        s.pc .refiller = RefillerPlace.returned
    · -- both are gone, so `main` can join them
      have hcustomer : CustomerPlace.Knows (s.pc .customer) s.mem := h.knows .customer
      have hrefiller : RefillerPlace.Knows (s.pc .refiller) s.mem := h.knows .refiller
      rw [hall.1] at hcustomer
      rw [hall.2] at hrefiller
      refine ⟨.main, ?_, fun i _ => ?_⟩
      · obtain ⟨t, ht⟩ := hun
        cases t with
        | main => exact ht
        | customer => exact absurd hall.1 ht
        | refiller => exact absurd hall.2 ht
      · unfold Shared.gone
        split
        · exact hcustomer.2
        · exact hrefiller.2
    · generalize hpc : s.pc .main = pc at hmain
      change MainPlace at pc
      cases pc with
      | create k =>
        refine ⟨.main, fun hret => ?_, fun i hjoin => ?_⟩
        · rw [hpc] at hret
          cases hret
        · rw [hpc] at hjoin
          cases hjoin
      | join k => exact exists_moves_of_rest h hrest hmain hall
      | returned => exact exists_moves_of_rest h hrest hmain hall

/-- As long as a thread has not returned some thread can take a step. -/
theorem Inv.canStep {s : State} (h : Inv s) (hun : ∃ t, ¬ Returned t (s.pc t)) :
    ∃ t, CanStep v s t := by
  obtain ⟨t, ht⟩ := exists_moves h hun
  have hmoves : ∀ u, Moves s u → ∃ e r, NotSpurious u (s.pc u) e ∧
      program v u (s.pc u) s.mem e = some r := fun u hu => hu.enabled
  obtain ⟨u, e, s', -, he, hs'⟩ := h.locked.progress (program_oneAtATime v).ordered
    (fun _ => le_refl 0) hmoves (fun u x hx => moves_of_inside hx) ht
  exact ⟨u, e, he, Option.isSome_iff_exists.mpr ⟨s', hs'⟩⟩

/-! ## 5. Every run -/

theorem left_init : left init = 125 := rfl

/-- Nobody is inside where both wait, so the storage would be full and empty. -/
theorem Inv.not_both_waiting {s : State} (h : Inv s) :
    ¬ (s.mem.wait .customer = .waiting ∧ s.mem.wait .refiller = .waiting) := by
  intro hboth
  rcases h.locked.locks.binary () with h0 | h1
  · obtain ⟨t, ht⟩ := h.locked.owned () h0
    cases t with
    | main => exact ht
    | customer => exact CustomerPlace.Knows.awake (h.knows .customer) ht hboth.1
    | refiller => exact RefillerPlace.Knows.awake (h.knows .refiller) ht hboth.2
  · have hrest : Rest s.mem := h.free () (by rw [h1]; exact Int.one_pos)
    have hfuel := hrest.refillerWaits hboth.2
    rw [(hrest.customerWaits hboth.1).1] at hfuel
    cases hfuel

/-- With both gone the mutex is free. -/
theorem Inv.rest_of_returned {s : State} (h : Inv s) (hall : ∀ t, Returned t (s.pc t)) :
    Rest s.mem := by
  rcases h.locked.locks.binary () with h0 | h1
  · obtain ⟨t, ht⟩ := h.locked.owned () h0
    have hout : ∀ {t : Thread} {pc : Place t}, Returned t pc → ¬ inside t pc := by
      intro t pc hret
      cases t <;> cases hret <;> exact id
    exact absurd ht (hout (hall t))
  · exact h.free () (by rw [h1]; exact Int.one_pos)

/-- **The customer is served**, in all three versions. -/
theorem served (v : Version) :
    (∀ as s, run (step v) as init = some s →
      as.length ≤ 125 + 9 * as.countP fun a => a.2.isSpurious) ∧
    ∀ s, Reaches (step v) (fun _ _ => True) init s →
      ¬ (s.mem.wait .customer = .waiting ∧ s.mem.wait .refiller = .waiting) ∧
      ((∀ t, ¬ CanStep v s t) → (∀ t, Returned t (s.pc t)) ∧ s.mem.car = 105 ∧
        s.mem.fuel = 0 ∧ s.mem.refills = 2) := by
  refine ⟨fun as s hrun => ?_, fun s hreach => ⟨(inv_of_reaches hreach).not_both_waiting, ?_⟩⟩
  · rw [← left_init]
    refine length_le_of_costs left _ _ (fun s a s' hinv hstep => ?_) inv_init hrun
    exact ⟨inv_step s a s' hinv hstep, left_lt hinv hstep⟩
  · intro hstuck
    have hinv := inv_of_reaches hreach
    have hreturned : ∀ t, Returned t (s.pc t) := by
      by_contra hun
      push Not at hun
      obtain ⟨t, ht⟩ := hinv.canStep (v := v) hun
      exact hstuck t ht
    have hrest := hinv.rest_of_returned hreturned
    have hk : CustomerPlace.Knows (s.pc .customer) s.mem := hinv.knows .customer
    rw [show s.pc .customer = CustomerPlace.returned from hreturned .customer] at hk
    have hfull : 75 ≤ s.mem.car := hk.1
    have hfuel : s.mem.fuel = 0 :=
      hrest.fuel.resolve_right fun h35 => absurd (hrest.wanted h35) (not_lt.mpr hk.1)
    have hcar := hrest.car
    have hwhole := hrest.whole
    have hbalance := hrest.balance
    rw [hfuel] at hbalance
    exact ⟨hreturned, by omega, hfuel, by omega⟩

end OneCar
end Labs
