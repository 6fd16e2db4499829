import Labs.GasStation.Knowledge

/-!
# No wake-up is missed

The refiller decides once whether to refill, before it waits, and does not look at the cars again
when it has been woken. A signal finds nobody when nobody waits. Neither does any harm: while the
mutex is free the refiller waits for the storage to be emptied, and then there is a customer with a
car to fill that does not wait (`Rest.stored`, `Rest.needed`, `Rest.wanted`). So somebody who has
not finished can always take a step, and not just by waking up for no reason.

## From knowledge to progress

The assertions of `Knowledge` are about what threads know, and nothing in them prevents all threads
from sleeping. What does is a property of the memory between two critical sections: `Rest`. Whoever
acquires the mutex may rely on it and whoever releases it has to restore it, so it holds whenever
the mutex is free (`Guarded`).

Progress is then proved from the state alone. If somebody is inside, that thread is on its way
(`Busy`) and moves. If nobody is, the mutex is free; then either the refiller does not wait, and
moves, or `Rest` names a customer with a car to fill that does not wait, and it moves. `main` waits
in `pthread_join` only, for a thread that has not returned, and so again for one of the others.

A spurious wake-up is always possible for a sleeper, and would make the statement worthless;
`CanStep` asks for another step.
-/

namespace Labs
namespace GasStation

open Lib

variable {c : Config} {m m' : Shared c} {op : SemOp Unit} {e : Event c}

/-! ## 1. Knowledge lasts -/

/-- What a customer knows inside, it knows as long as nobody else does anything. -/
theorem CustomerPlace.Knows.calm {i : Customer c} {pc : CustomerPlace} (hk : pc.Knows i m)
    (hc : Calm m m') (hin : pc.inside) : pc.Knows i m' := by
  have hcar := congrFun hc.cars i
  have hawake : Awake i m → Awake i m' := by
    intro h
    refine ⟨?_, fun hw => h.2 (hc.empty i hw)⟩
    rw [hcar]
    exact h.1
  cases pc with
  | testFuel => exact ⟨hk.1.calm hc, hawake hk.2⟩
  | condWait | loadCar => exact ⟨hk.1.calm hc, hawake hk.2.1, hc.fuel.trans hk.2.2⟩
  | loadFuel car =>
    obtain ⟨hrest, ha, hfuel, hcar'⟩ := hk
    exact ⟨hrest.calm hc, hawake ha, hc.fuel.trans hfuel, hcar'.trans hcar.symm⟩
  | storeCar car fuel =>
    obtain ⟨hrest, ha, hfuel, hcar', hfuel'⟩ := hk
    exact ⟨hrest.calm hc, hawake ha, hc.fuel.trans hfuel, hcar'.trans hcar.symm, hfuel'⟩
  | clearFuel =>
    obtain ⟨hsane, hw, hfuel, hbalance⟩ := hk
    refine ⟨hsane.calm hc, fun h => hw (hc.empty i h), hc.fuel.trans hfuel, ?_⟩
    rw [hc.cars, hc.refills]
    exact hbalance
  | testCar => exact ⟨hk.1.calm hc, fun h => hk.2.1 (hc.empty i h), hc.fuel.trans hk.2.2⟩
  | signalFull filled =>
    obtain ⟨hbooks, hw, hfuel, hfilled⟩ := hk
    refine ⟨hbooks.calm hc, fun h => hw (hc.empty i h), hc.fuel.trans hfuel, ?_⟩
    rw [hcar]
    exact hfilled
  | unlock filled =>
    obtain ⟨hrest, hw, hfilled⟩ := hk
    refine ⟨hrest.calm hc, fun h => hw (hc.empty i h), ?_⟩
    rw [hcar]
    exact hfilled
  | _ => exact absurd hin id

theorem RefillerPlace.Knows.calm {pc : RefillerPlace} (hk : pc.Knows m) (hc : Calm m m')
    (hin : pc.inside) : pc.Knows m' := by
  have hall : AllFilled m → AllFilled m' := by
    intro h i
    rw [hc.cars]
    exact h i
  cases pc with
  | scan k =>
    obtain ⟨hrest, hout, hbefore⟩ := hk
    refine ⟨hrest.calm hc, hc.full_out hout, fun i hi => ?_⟩
    rw [hc.cars]
    exact hbefore i hi
  | testFuel doRefill =>
    obtain ⟨hrest, hout, hno, hyes⟩ := hk
    refine ⟨hrest.calm hc, hc.full_out hout, fun h => hall (hno h), fun h hfuel => ?_⟩
    rw [hc.fuel] at hfuel
    rw [hc.cars]
    exact hyes h hfuel
  | condWait doRefill =>
    obtain ⟨hrest, hdo, hfuel, hcar⟩ := hk
    refine ⟨hrest.calm hc, hdo, hc.fuel.trans hfuel, ?_⟩
    rw [hc.cars]
    exact hcar
  | setFuel => exact ⟨hk.1.calm hc, hc.full_out hk.2.1, hc.fuel.trans hk.2.2⟩
  | notify => exact ⟨hk.1.calm hc, hc.full_out hk.2.1, hc.fuel.trans hk.2.2⟩
  | unlock => exact ⟨hk.1.calm hc, hc.full_out hk.2⟩
  | leaveNotify | leaveUnlock => exact ⟨hk.1.calm hc, hall hk.2⟩
  | _ => exact absurd hin id

/-- A full car stays as it is. -/
theorem program_filled {t : Thread c} {pc pc' : Place t} {i : Customer c} (hk : Knows t pc m)
    (h : program c t pc m e = some (pc', m', op)) (hi : TANK_CAPACITY ≤ m.cars i) :
    TANK_CAPACITY ≤ m'.cars i := by
  by_cases ht : t = .customer i
  · subst ht
    change CustomerPlace at pc
    change CustomerPlace.Knows i pc m at hk
    change purchase i pc m e = _ at h
    cases pc with
    | start =>
      cases e <;> try cases h
      simp only [purchase] at h
      split at h <;> cases h
      exact hi
    | asleep =>
      cases e <;> try cases h
      · simp only [purchase] at h
        split at h <;> cases h
        exact hi
      · exact hi
    | storeCar car fuel => exact absurd hk.2.1.1 (not_lt.mpr hi)
    | unlock filled => cases filled <;> cases e <;> cases h <;> exact hi
    | _ => cases e <;> cases h <;> exact hi
  · rw [(program_leaves h).cars i ht]
    exact hi

/-- **The step of another thread** leaves what a thread knows. -/
theorem knows_stable {t u : Thread c} {pc pc' : Place t} {at_u : Place u} (hne : u ≠ t)
    (ht : Knows t pc m) (h : program c t pc m e = some (pc', m', op))
    (hapart : inside t pc → ¬ inside u at_u) (hu : Knows u at_u m) : Knows u at_u m' := by
  have hleaves := program_leaves h
  by_cases hin : inside u at_u
  · -- then the other one is outside
    have hcalm := program_calm (fun hp => hapart hp hin) h
    cases u with
    | main => exact absurd hin id
    | refiller => exact RefillerPlace.Knows.calm hu hcalm hin
    | customer i => exact CustomerPlace.Knows.calm hu hcalm hin
  · cases u with
    | main =>
      change MainPlace at at_u
      have hcreated := hleaves.created hne.symm
      cases at_u with
      | create k => exact hcreated.trans hu
      | join k | returned =>
        show c.cars + 1 ≤ m'.created
        rw [hcreated]
        exact hu
    | refiller =>
      change RefillerPlace at at_u
      have hfull := hleaves.full hne.symm
      cases at_u with
      | start | lock => exact hfull.mpr hu
      | asleep doRefill => exact ⟨hu.1, fun hout => hu.2 (hfull.mp hout)⟩
      | returned => exact ⟨hleaves.gone hu.1, fun i => program_filled ht h (hu.2 i)⟩
      | _ => exact absurd trivial hin
    | customer i =>
      change CustomerPlace at at_u
      have hcar := hleaves.cars i hne.symm
      have hawake : Awake i m → Awake i m' := by
        rintro ⟨hlt, hw⟩
        refine ⟨?_, fun hw' => hw (hleaves.empty i hne.symm hw')⟩
        rw [hcar]
        exact hlt
      cases at_u with
      | start | lock => exact hawake hu
      | asleep =>
        show m'.cars i < TANK_CAPACITY
        rw [hcar]
        exact hu
      | returned => exact ⟨program_filled ht h hu.1, hleaves.returned i hu.2⟩
      | _ => exact absurd trivial hin

/-! ## 2. The invariant -/

def Inv (s : State c) : Prop := Guarded held (fun _ => Rest) Knows s

theorem inv_init (c : Config) : Inv (init c) := by
  have hcap : 0 < TANK_CAPACITY + GAS_STORAGE := by decide
  refine ⟨.initial (fun t => heldInside_of_outside ?_) fun _ => rfl, fun _ _ => ?_, fun t => ?_⟩
  · cases t <;> exact id
  · refine ⟨⟨⟨fun _ => ⟨le_refl 0, hcap⟩, nofun⟩, .inl rfl, ?_⟩, nofun, fun h => absurd rfl h, nofun⟩
    simp [init]
  · cases t with
    | main => exact rfl
    | refiller => exact rfl
    | customer i => exact ⟨by simp [init], nofun⟩

theorem inv_step (s : State c) (a : Thread c × Event c) (s' : State c) (h : Inv s)
    (hstep : step c s a = some s') : Inv s' := by
  obtain ⟨t, e⟩ := a
  refine Guarded.step h (program_keeps c) trivial ?_ ?_ ?_ hstep
  · intro pc m op hnext hwait
    cases t with
    | main =>
      refine ⟨mainThread_knows (h.knows .main) hnext, fun x hx => ?_⟩
      subst hx
      have hmoves := (mainThread_passes hnext).keeps.1.1
      exact absurd hmoves id
    | refiller =>
      obtain ⟨hknows, hpost⟩ := refill_knows (h.knows .refiller) hnext (hwait ())
      exact ⟨hknows, fun _ hx => hpost hx⟩
    | customer i =>
      obtain ⟨hknows, hpost⟩ := purchase_knows (h.knows (.customer i)) hnext (hwait ())
      exact ⟨hknows, fun _ hx => hpost hx⟩
  · intro x pc m op hnext hout hrest
    exact hrest.calm (program_calm hout hnext)
  · intro u pc m op hne hnext hapart hu
    exact knows_stable hne (h.knows t) hnext (fun hp hq => hapart () hp hq) hu

/-- Whoever is inside knows the accounts; with nobody inside they are in order. -/
theorem Inv.accounts {s : State c} (h : Inv s) :
    (s.mem.fuel = 0 ∨ s.mem.fuel = 35) ∧
      ((∀ i, s.pc (.customer i) ≠ CustomerPlace.clearFuel) →
        ∑ i, s.mem.cars i + s.mem.fuel = 35 * s.mem.refills) := by
  have hbooks : Books s.mem → (s.mem.fuel = 0 ∨ s.mem.fuel = 35) ∧
      ((∀ i, s.pc (.customer i) ≠ CustomerPlace.clearFuel) →
        ∑ i, s.mem.cars i + s.mem.fuel = 35 * s.mem.refills) := fun h => ⟨h.fuel, fun _ => h.balance⟩
  rcases h.locked.locks.binary () with h0 | h1
  · obtain ⟨t, ht⟩ := h.locked.owned () h0
    have hk := h.knows t
    change inside t (s.pc t) at ht
    cases t with
    | main => exact absurd ht id
    | refiller =>
      change RefillerPlace.inside (s.pc .refiller) at ht
      change RefillerPlace.Knows (s.pc .refiller) s.mem at hk
      generalize hpc : s.pc .refiller = pc at ht hk
      change RefillerPlace at pc
      cases pc with
      | notify => exact hbooks hk.1
      | scan k | testFuel doRefill | condWait doRefill | setFuel | unlock | leaveNotify
      | leaveUnlock => exact hbooks hk.1.toBooks
      | _ => exact absurd ht id
    | customer i =>
      change CustomerPlace.inside (s.pc (.customer i)) at ht
      change CustomerPlace.Knows i (s.pc (.customer i)) s.mem at hk
      generalize hpc : s.pc (.customer i) = pc at ht hk
      change CustomerPlace at pc
      cases pc with
      | clearFuel => exact ⟨.inr hk.2.2.1, fun hnone => absurd hpc (hnone i)⟩
      | testCar | signalFull filled => exact hbooks hk.1
      | testFuel | condWait | loadCar | loadFuel car | storeCar car fuel | unlock filled =>
        exact hbooks hk.1.toBooks
      | _ => exact absurd ht id
  · exact hbooks (h.free () (by rw [h1]; exact Int.one_pos)).toBooks

/-! ## 3. Somebody can go on -/

/-- The thread has returned. -/
def Returned : (t : Thread c) → Place t → Prop
  | .main, pc => pc = .returned
  | .refiller, pc => pc = .returned
  | .customer _, pc => pc = .returned

def NotSpurious (t : Thread c) (_ : Place t) (e : Event c) : Prop := e ≠ .spurious

/-- A step of the thread, and not just a spurious wake-up. -/
def CanStep (s : State c) (t : Thread c) : Prop := ∃ e, e ≠ .spurious ∧ (step c s (t, e)).isSome

/-- The thread waits on a condition. -/
def Sleeping (m : Shared c) : (t : Thread c) → Place t → Prop
  | .main, _ => False
  | .refiller, .asleep _ => m.full = .waiting
  | .customer i, .asleep => m.empty i = .waiting
  | _, _ => False

theorem exists_signalEmpty (m : Shared c) : ∃ e m', e ≠ .spurious ∧ signalEmpty m e = some m' := by
  by_cases hall : ∀ i, m.empty i ≠ .waiting
  · exact ⟨.ok, _, by simp, if_pos hall⟩
  · push Not at hall
    obtain ⟨i, hi⟩ := hall
    exact ⟨.wake i, _, by simp, if_pos hi⟩

theorem exists_notifyEmpty (v : Version) (m : Shared c) :
    ∃ e m', e ≠ .spurious ∧ notifyEmpty v m e = some m' := by
  cases v with
  | signal => exact exists_signalEmpty m
  | broadcast => exact ⟨.ok, _, by simp, rfl⟩

/-- The thread is on its way: it has been started, has not returned, and does not sleep. -/
structure Busy (s : State c) (t : Thread c) : Prop where
  unfinished : ¬ Returned t (s.pc t)
  awake : ¬ Sleeping s.mem t (s.pc t)
  started : (t = .refiller → s.pc .refiller = RefillerPlace.start → 0 < s.mem.created) ∧
    ∀ i, t = .customer i → s.pc (.customer i) = CustomerPlace.start → i.val + 1 < s.mem.created
  joined : ∀ k, t = .main → s.pc .main = MainPlace.join k → s.mem.gone k = true

/-- `pthread_join` is the only other call that has to wait. -/
theorem Busy.enabled {s : State c} {t : Thread c} (h : Busy s t) :
    ∃ e r, e ≠ .spurious ∧ program c t (s.pc t) s.mem e = some r := by
  cases t with
  | main =>
    have hret := h.unfinished
    have hjoin := h.joined
    show ∃ e r, e ≠ .spurious ∧ mainThread c (s.pc .main) s.mem e = some r
    change ¬ s.pc .main = MainPlace.returned at hret
    generalize s.pc .main = pc at hret hjoin
    change MainPlace at pc
    cases pc with
    | create k => exact ⟨.ok, _, by simp, rfl⟩
    | join k => exact ⟨.ok, _, by simp, if_pos (hjoin k rfl rfl)⟩
    | returned => exact absurd rfl hret
  | refiller =>
    have hret := h.unfinished
    have hsleep := h.awake
    have hstart := h.started.1 rfl
    show ∃ e r, e ≠ .spurious ∧ refill c (s.pc .refiller) s.mem e = some r
    change ¬ s.pc .refiller = RefillerPlace.returned at hret
    generalize s.pc .refiller = pc at hret hsleep hstart
    change RefillerPlace at pc
    cases pc with
    | start => exact ⟨.ok, _, by simp, if_pos (hstart rfl)⟩
    | testFuel doRefill =>
      by_cases hstored : GAS_STORAGE ≤ s.mem.fuel ∧ doRefill = true
      · exact ⟨.ok, _, by simp, if_pos hstored⟩
      · by_cases hno : doRefill = false
        · exact ⟨.ok, _, by simp, (if_neg hstored).trans (if_pos hno)⟩
        · exact ⟨.ok, _, by simp, (if_neg hstored).trans (if_neg hno)⟩
    | asleep doRefill => exact ⟨.ok, _, by simp, if_neg hsleep⟩
    | notify =>
      obtain ⟨e, m', he, hm'⟩ := exists_notifyEmpty c.version s.mem
      exact ⟨e, _, he, Option.map_eq_some_iff.mpr ⟨m', hm', rfl⟩⟩
    | leaveNotify =>
      obtain ⟨e, m', he, hm'⟩ := exists_signalEmpty s.mem
      exact ⟨e, _, he, Option.map_eq_some_iff.mpr ⟨m', hm', rfl⟩⟩
    | returned => exact absurd rfl hret
    | _ => exact ⟨.ok, _, by simp, rfl⟩
  | customer i =>
    have hret := h.unfinished
    have hsleep := h.awake
    have hstart := h.started.2 i rfl
    show ∃ e r, e ≠ .spurious ∧ purchase i (s.pc (.customer i)) s.mem e = some r
    change ¬ s.pc (.customer i) = CustomerPlace.returned at hret
    generalize s.pc (.customer i) = pc at hret hsleep hstart
    change CustomerPlace at pc
    cases pc with
    | start => exact ⟨.ok, _, by simp, if_pos (hstart rfl)⟩
    | asleep => exact ⟨.ok, _, by simp, if_neg hsleep⟩
    | unlock filled => cases filled <;> exact ⟨.ok, _, by simp, rfl⟩
    | returned => exact absurd rfl hret
    | _ => exact ⟨.ok, _, by simp, rfl⟩

/-- Inside a thread is on its way. -/
theorem busy_of_inside {s : State c} {t : Thread c} (h : inside t (s.pc t)) : Busy s t := by
  cases t with
  | main => exact absurd h id
  | refiller =>
    change RefillerPlace.inside (s.pc .refiller) at h
    refine ⟨fun hret => ?_, fun hsleep => ?_, ⟨fun _ hstart => ?_, nofun⟩, nofun⟩
    · rw [show s.pc .refiller = RefillerPlace.returned from hret] at h
      exact h
    · generalize s.pc .refiller = pc at h hsleep
      change RefillerPlace at pc
      cases pc with
      | asleep doRefill => exact h
      | _ => exact hsleep
    · rw [hstart] at h
      exact absurd h id
  | customer i =>
    change CustomerPlace.inside (s.pc (.customer i)) at h
    refine ⟨fun hret => ?_, fun hsleep => ?_, ⟨nofun, fun j hj hstart => ?_⟩, nofun⟩
    · rw [show s.pc (.customer i) = CustomerPlace.returned from hret] at h
      exact h
    · generalize s.pc (.customer i) = pc at h hsleep
      change CustomerPlace at pc
      cases pc with
      | asleep => exact h
      | _ => exact hsleep
    · cases hj
      rw [hstart] at h
      exact absurd h id

theorem customer_busy {s : State c} {i : Customer c}
    (hcreated : c.cars + 1 ≤ s.mem.created) (hret : s.pc (.customer i) ≠ CustomerPlace.returned)
    (hw : s.mem.empty i ≠ .waiting) : Busy s (.customer i) := by
  refine ⟨hret, fun hsleep => ?_, ⟨nofun, fun j hj _ => ?_⟩, nofun⟩
  · generalize s.pc (.customer i) = pc at hsleep
    change CustomerPlace at pc
    cases pc with
    | asleep => exact hw hsleep
    | _ => exact hsleep
  · cases hj
    exact lt_of_lt_of_le (Nat.succ_lt_succ i.isLt) hcreated

/-- With the mutex free and all threads started: the refiller waits for somebody who does not wait
    for the refiller. -/
theorem exists_busy_of_rest {s : State c} (h : Inv s) (hrest : Rest s.mem)
    (hcreated : c.cars + 1 ≤ s.mem.created)
    (hun : ¬ (s.pc .refiller = RefillerPlace.returned ∧
      ∀ i, s.pc (.customer i) = CustomerPlace.returned)) : ∃ t, Busy s t := by
  by_cases hret : s.pc .refiller = RefillerPlace.returned
  · -- all cars are full, so no customer waits
    have hk : RefillerPlace.Knows (s.pc .refiller) s.mem := h.knows .refiller
    rw [hret] at hk
    have hcustomer : ∃ i, s.pc (.customer i) ≠ CustomerPlace.returned := by
      by_contra hall
      push Not at hall
      exact hun ⟨hret, hall⟩
    obtain ⟨i, hi⟩ := hcustomer
    exact ⟨_, customer_busy hcreated hi fun hw => absurd (hrest.thirsty i hw) (not_lt.mpr (hk.2 i))⟩
  · by_cases hsleep : Sleeping s.mem .refiller (s.pc .refiller)
    · have hwaiting : s.mem.full = .waiting := by
        generalize s.pc .refiller = pc at hsleep
        change RefillerPlace at pc
        cases pc with
        | asleep doRefill => exact hsleep
        | _ => exact absurd hsleep id
      have hfuel := hrest.stored hwaiting
      have hneeded := hrest.needed (by rw [hwaiting]; simp) hfuel
      obtain ⟨i, hi, hw⟩ := hrest.wanted hfuel hneeded
      refine ⟨_, customer_busy hcreated (fun hgone => ?_) hw⟩
      have hk : CustomerPlace.Knows i (s.pc (.customer i)) s.mem := h.knows (.customer i)
      rw [hgone] at hk
      exact absurd hi (not_lt.mpr hk.1)
    · refine ⟨.refiller, hret, hsleep, ⟨fun _ _ => ?_, nofun⟩, nofun⟩
      exact lt_of_lt_of_le (Nat.succ_pos _) hcreated

theorem exists_busy {s : State c} (h : Inv s) (hun : ∃ t, ¬ Returned t (s.pc t)) :
    ∃ t, Busy s t := by
  rcases h.locked.locks.binary () with h0 | h1
  · obtain ⟨t, ht⟩ := h.locked.owned () h0
    exact ⟨t, busy_of_inside ht⟩
  · have hrest : Rest s.mem := h.free () (by rw [h1]; exact Int.one_pos)
    have hmain : MainPlace.Knows (s.pc .main) s.mem := h.knows .main
    by_cases hall : s.pc .refiller = RefillerPlace.returned ∧
        ∀ i, s.pc (.customer i) = CustomerPlace.returned
    · -- everybody is gone, so `main` can join them
      have hgone : ∀ k, s.mem.gone k = true := by
        intro k
        cases k with
        | zero =>
          have hk : RefillerPlace.Knows (s.pc .refiller) s.mem := h.knows .refiller
          rw [hall.1] at hk
          exact hk.1
        | succ k =>
          show (if h : k < c.cars then s.mem.returned ⟨k, h⟩ else true) = true
          split
          · rename_i hlt
            have hk : CustomerPlace.Knows ⟨k, hlt⟩ (s.pc (.customer ⟨k, hlt⟩)) s.mem :=
              h.knows (.customer ⟨k, hlt⟩)
            rw [hall.2] at hk
            exact hk.2
          · rfl
      refine ⟨.main, ?_, id, ⟨nofun, nofun⟩, fun k _ _ => hgone k⟩
      obtain ⟨t, ht⟩ := hun
      cases t with
      | main => exact ht
      | refiller => exact absurd hall.1 ht
      | customer i => exact absurd (hall.2 i) ht
    · generalize hpc : s.pc .main = pc at hmain
      change MainPlace at pc
      cases pc with
      | create k =>
        refine ⟨.main, ?_, id, ⟨nofun, nofun⟩, fun k' _ hjoin => ?_⟩
        · intro hret
          change s.pc .main = MainPlace.returned at hret
          rw [hpc] at hret
          cases hret
        · rw [hpc] at hjoin
          cases hjoin
      | join k => exact exists_busy_of_rest h hrest hmain hall
      | returned => exact exists_busy_of_rest h hrest hmain hall

/-- As long as a thread has not returned, one that has not returned can take a step. -/
theorem Inv.canStep {s : State c} (h : Inv s) (hun : ∃ t, ¬ Returned t (s.pc t)) :
    ∃ t, ¬ Returned t (s.pc t) ∧ CanStep s t := by
  obtain ⟨t, ht⟩ := exists_busy h hun
  have hone := program_oneAtATime c
  have hmoves : ∀ u, Busy s u → ∃ e r, NotSpurious u (s.pc u) e ∧
      program c u (s.pc u) s.mem e = some r := fun u hu => hu.enabled
  obtain ⟨u, e, s', hu, he, hs'⟩ := h.locked.progress hone.ordered (fun _ => le_refl 0) hmoves
    (fun u x hx => busy_of_inside hx) ht
  exact ⟨u, hu.unfinished, e, he, Option.isSome_iff_exists.mpr ⟨s', hs'⟩⟩

/-! ## 4. Every run -/

/-- A customer has filled its car and not yet cleared the storage. -/
def Filling (s : State c) : Prop := ∃ i, s.pc (.customer i) = CustomerPlace.clearFuel

/-- **The gas station.** -/
theorem station_runs {s : State c} (h : Reaches (step c) (fun _ _ => True) (init c) s) :
    (s.mem.fuel = 0 ∨ s.mem.fuel = 35) ∧
      (¬ Filling s → ∑ i, s.mem.cars i + s.mem.fuel = 35 * s.mem.refills) ∧
      (Filling s → ∑ i, s.mem.cars i = 35 * s.mem.refills) ∧
      ((∃ t, ¬ Returned t (s.pc t)) → ∃ t, ¬ Returned t (s.pc t) ∧ CanStep s t) ∧
      ∀ i, Returned (.customer i) (s.pc (.customer i)) → TANK_CAPACITY ≤ s.mem.cars i := by
  have hinv : Inv s := h.invariant (inv_init c) fun s a s' hs _ hstep => inv_step s a s' hs hstep
  refine ⟨hinv.accounts.1, fun hno => ?_, fun hfilling => ?_, hinv.canStep, fun i hret => ?_⟩
  · exact hinv.accounts.2 fun i hi => hno ⟨i, hi⟩
  · obtain ⟨i, hi⟩ := hfilling
    have hk : CustomerPlace.Knows i (s.pc (.customer i)) s.mem := hinv.knows (.customer i)
    rw [hi] at hk
    exact hk.2.2.2
  · have hk : CustomerPlace.Knows i (s.pc (.customer i)) s.mem := hinv.knows (.customer i)
    rw [show s.pc (.customer i) = CustomerPlace.returned from hret] at hk
    exact hk.1

/-- One car. -/
def oneCar (v : Version) : Config := ⟨v, 1, Nat.one_pos⟩

def driver (v : Version) : Customer (oneCar v) := ⟨0, Nat.one_pos⟩

/-- The refiller fills the storage, and the customer comes for it. -/
def firstRefill (v : Version) : List (Thread (oneCar v) × Event (oneCar v)) :=
  List.replicate 2 (.main, .ok) ++ List.replicate 7 (.refiller, .ok) ++
    List.replicate 6 (.customer (driver v), .ok)

/-- `station_runs` at a run of three threads. -/
theorem station_runs_firstRefill :
    ∃ s : State (oneCar .signal),
      run (step (oneCar .signal)) (firstRefill .signal) (init (oneCar .signal)) = some s ∧
        (s.mem.fuel = 0 ∨ s.mem.fuel = 35) ∧
        ∃ t, ¬ Returned t (s.pc t) ∧ CanStep s t := by
  have hok : ∀ a ∈ firstRefill .signal, ∀ _s : State (oneCar .signal), True :=
    fun _ _ _ => trivial
  have hruns := station_runs (reaches_of_run hok .start rfl)
  exact ⟨_, rfl, hruns.1, hruns.2.2.2.1 ⟨.main, nofun⟩⟩

/-- Between its two stores a customer has the fuel twice. -/
def CountedTwice (v : Version) : Prop :=
  ∃ s : State (oneCar v), Reaches (step (oneCar v)) (fun _ _ => True) (init (oneCar v)) s ∧
    ∑ i, s.mem.cars i + s.mem.fuel ≠ 35 * s.mem.refills

theorem countedTwice_of_firstRefill (v : Version) : CountedTwice v := by
  have hok : ∀ a ∈ firstRefill v, ∀ _s : State (oneCar v), True := fun _ _ _ => trivial
  have hrun : ∃ s : State (oneCar v),
      run (step (oneCar v)) (firstRefill v) (init (oneCar v)) = some s ∧
        s.mem.cars (driver v) = 35 ∧ s.mem.fuel = 35 ∧ s.mem.refills = 1 := by
    cases v <;> exact ⟨_, rfl, by decide, rfl, rfl⟩
  obtain ⟨s, hs, hcars, hfuel, hrefills⟩ := hrun
  refine ⟨s, reaches_of_run hok .start hs, ?_⟩
  have hsum : ∑ i, s.mem.cars i = s.mem.cars (driver v) := Fin.sum_univ_one s.mem.cars
  rw [hsum, hcars, hfuel, hrefills]
  simp

/-- **In both versions.** -/
theorem fuel_counted_twice : CountedTwice .signal ∧ CountedTwice .broadcast :=
  ⟨countedTwice_of_firstRefill _, countedTwice_of_firstRefill _⟩

end GasStation
end Labs
