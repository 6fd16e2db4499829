import Labs.ConsumerSupplier.Program

/-!
# No unit is lost

The semaphore of a supplier protects its stock and nothing else; the demand of a consumer is its
own. So what a process has read of either is still there when it writes (`Knows`): no other process
can be inside the same critical section, whatever semaphores the numbering gives to two suppliers.

Between the two stores of a purchase the units that a consumer takes are counted twice, once as
satisfied demand and once as stock. They are what it has `inHand`, and the balance of stock,
demand and restocks is exact when nobody has any (`units_conserved`).

All of it holds as long as the stores of the suppliers stay within `int` (`Fits`), and whether or
not the calls fail.

## Semaphores that may coincide

System V numbers the semaphores by an `unsigned short`, so with very many suppliers two of them have
the same one. The proof does not look at the numbering. It uses that two processes are never inside
with the same semaphore (`Sound`); suppliers that share one exclude each other more than they need
to, and nothing gets lost.

`jobs` does not occur in the balance, as it is no unit; `Termination` is about it, with the same
`held`.

## The balance

`units` adds what is in stock and what has been satisfied, and takes away what was restocked. It is
not constant: between its two stores a consumer has taken the units off its demand and not yet off
the stock. `Balanced` has these as summands of the places, so it is an invariant of every step, and
the statement about states in which nobody is between its stores is the case in which all summands
are zero. The invariant has to be stronger than the statement, since a run hardly ever goes from one
such state to the next.

A process whose call fails goes to its end, and its semaphore is released or stays taken; in neither
case does that touch the cells.
-/

namespace Labs
namespace ConsumerSupplier

open Lib

variable {c : Config} {m m' : Shared c} {op : SemOp Sem} {e : Event c}

/-! ## 1. Who is inside -/

def ConsumerPlace.held : ConsumerPlace c → Set Sem
  | .testSup j | .readDem j | .readSup j _ | .readTake j _ | .loadDem j _ | .storeDem j _ _
  | .loadSup j _ | .storeSup j _ _ | .testDem j | .unlock j _ => {c.stockSem j}
  | .loadJobs | .storeJobs _ | .jobsUnlock => {.jobs}
  | .attach | .choose | .lock _ | .jobsLock | .exited => ∅

def SupplierPlace.held (j : Fin c.supNum) : SupplierPlace → Set Sem
  | .loadSup | .storeSup _ | .unlock => {c.stockSem j}
  | .testJobs | .jobsUnlock _ => {.jobs}
  | .attach | .lock | .jobsLock | .exited => ∅

def held : (p : Proc c) → Place c p → Set Sem
  | .inl _, pc => ConsumerPlace.held pc
  | .inr j, pc => SupplierPlace.held j pc

theorem moves_undo (c : Config) (x : Sem) : (c.undo x).Moves {x} ∅ := by
  unfold Config.undo
  cases c.version with
  | systemV => exact SemOp.moves_post x
  | posix => exact ⟨rfl, Set.sdiff_self.symm⟩

theorem consume_moves {i : Fin c.consNum} {pc pc' : ConsumerPlace c}
    (h : consume c i pc m e = some (pc', m', op)) : op.Moves pc.held pc'.held := by
  cases pc with
  | attach => cases e <;> cases h <;> rfl
  | lock j =>
    cases e with
    | pick j => cases h
    | ok => cases h; exact SemOp.moves_wait _
    | fail => cases h; rfl
  | testSup j =>
    cases e <;> cases h
    split <;> rfl
  | unlock j satisfied =>
    cases e with
    | pick j => cases h
    | ok =>
      cases h
      cases satisfied <;> exact SemOp.moves_post _
    | fail => cases h; exact moves_undo c _
  | jobsLock =>
    cases e with
    | pick j => cases h
    | ok => cases h; exact SemOp.moves_wait _
    | fail => cases h; rfl
  | jobsUnlock =>
    cases e with
    | pick j => cases h
    | ok => cases h; exact SemOp.moves_post _
    | fail => cases h; exact moves_undo c _
  | _ => cases e <;> cases h <;> rfl

theorem supply_moves {j : Fin c.supNum} {pc pc' : SupplierPlace}
    (h : supply c j pc m e = some (pc', m', op)) :
    op.Moves (pc.held (c := c) j) (pc'.held (c := c) j) := by
  cases pc with
  | lock =>
    cases e with
    | pick j => cases h
    | ok => cases h; exact SemOp.moves_wait _
    | fail => cases h; rfl
  | unlock =>
    cases e with
    | pick j => cases h
    | ok => cases h; exact SemOp.moves_post _
    | fail => cases h; exact moves_undo c _
  | jobsLock =>
    cases e with
    | pick j => cases h
    | ok => cases h; exact SemOp.moves_wait _
    | fail => cases h; rfl
  | jobsUnlock done =>
    cases e with
    | pick j => cases h
    | ok =>
      cases h
      cases done <;> exact SemOp.moves_post _
    | fail => cases h; exact moves_undo c _
  | _ => cases e <;> cases h <;> rfl

/-- Every process releases what it has acquired before it acquires anything else. -/
theorem program_disciplined (c : Config) : Disciplined (program c) held := by
  intro p pc m e pc' m' op h
  cases p with
  | inl i => exact consume_moves h
  | inr j => exact supply_moves h

/-! ## 2. What a process knows -/

/-- What the registers of a consumer have to do with the segment. -/
def ConsumerPlace.Knows (i : Fin c.consNum) : ConsumerPlace c → Shared c → Prop
  | .readSup _ dem, m => dem = m.demUnit i
  | .readTake j less, m => less = decide (m.demUnit i < m.supUnit j)
  | .loadDem j take, m => 0 ≤ take ∧ take ≤ m.demUnit i ∧ take ≤ m.supUnit j
  | .storeDem j take dem, m => 0 ≤ take ∧ take ≤ dem ∧ take ≤ m.supUnit j ∧ dem = m.demUnit i
  | .loadSup j take, m => 0 ≤ take ∧ take ≤ m.supUnit j
  | .storeSup j take sup, m => 0 ≤ take ∧ take ≤ sup ∧ sup = m.supUnit j
  | _, _ => True

def SupplierPlace.Knows (j : Fin c.supNum) : SupplierPlace → Shared c → Prop
  | .storeSup sup, m => sup = m.supUnit j
  | _, _ => True

def Knows : (p : Proc c) → Place c p → Shared c → Prop
  | .inl i, pc, m => ConsumerPlace.Knows i pc m
  | .inr j, pc, m => SupplierPlace.Knows j pc m

/-- The units that a consumer has taken off its demand and not yet out of the stock. -/
def ConsumerPlace.inHand : ConsumerPlace c → Int
  | .loadSup _ take => take
  | .storeSup _ take _ => take
  | _ => 0

def inHand : (p : Proc c) → Place c p → Int
  | .inl _, pc => ConsumerPlace.inHand pc
  | .inr _, _ => 0

/-- Every cell is in its bounds. -/
structure InBounds (m : Shared c) : Prop where
  dem : ∀ i, 0 ≤ m.demUnit i ∧ m.demUnit i ≤ c.demandUnit
  sup : ∀ j, 0 ≤ m.supUnit j ∧ m.supUnit j ≤ INT_MAX

/-- The stores of the suppliers stay within `int`. -/
def Fits (s : State c) (a : Proc c × Event c) : Prop :=
  match a.1 with
  | .inl _ => True
  | .inr j =>
    match s.pc (.inr j) with
    | .storeSup sup => sup + c.supplyUnit ≤ INT_MAX
    | _ => True

theorem wrap32_sub {take x : Int} (h0 : 0 ≤ take) (hx : take ≤ x) (hmax : x ≤ INT_MAX) :
    wrap32 (x - take) = x - take := by
  refine wrap32_of_inRange ⟨?_, ?_⟩
  · exact le_trans (by decide) (sub_nonneg.mpr hx)
  · exact le_trans (sub_le_self x h0) hmax

theorem InBounds.setDem {i : Fin c.consNum} {x : Int} (h : InBounds m)
    (hx : 0 ≤ x ∧ x ≤ c.demandUnit) : InBounds (m.setDem i x) := by
  refine ⟨fun i' => ?_, h.sup⟩
  show 0 ≤ Function.update m.demUnit i x i' ∧ Function.update m.demUnit i x i' ≤ c.demandUnit
  by_cases hi : i' = i
  · subst hi
    rw [Function.update_self]
    exact hx
  · rw [Function.update_of_ne hi]
    exact h.dem i'

theorem InBounds.setSup {j : Fin c.supNum} {x : Int} (h : InBounds m)
    (hx : 0 ≤ x ∧ x ≤ INT_MAX) : InBounds (m.setSup j x) := by
  refine ⟨h.dem, fun j' => ?_⟩
  show 0 ≤ Function.update m.supUnit j x j' ∧ Function.update m.supUnit j x j' ≤ INT_MAX
  by_cases hj : j' = j
  · subst hj
    rw [Function.update_self]
    exact hx
  · rw [Function.update_of_ne hj]
    exact h.sup j'

/-- `take` is the smaller one of the demand and the stock. -/
theorem take_le {d s : Int} (hd : 0 ≤ d) (hs : 0 ≤ s) :
    let take := if decide (d < s) then d else s
    0 ≤ take ∧ take ≤ d ∧ take ≤ s := by
  intro take
  by_cases h : d < s
  · have htake : take = d := by simp [take, h]
    rw [htake]
    exact ⟨hd, le_refl d, le_of_lt h⟩
  · have htake : take = s := by simp [take, h]
    rw [htake]
    exact ⟨hs, not_lt.mp h, le_refl s⟩

/-- **A step of a consumer**: the cells stay in their bounds, and it knows what it has read. -/
theorem consume_knows {i : Fin c.consNum} {pc pc' : ConsumerPlace c} (hm : InBounds m)
    (hk : pc.Knows i m) (h : consume c i pc m e = some (pc', m', op)) :
    InBounds m' ∧ pc'.Knows i m' := by
  cases pc with
  | testSup j =>
    cases e <;> cases h
    refine ⟨hm, ?_⟩
    split <;> trivial
  | readSup j dem =>
    cases e <;> cases h
    exact ⟨hm, by rw [show dem = m.demUnit i from hk]; rfl⟩
  | readTake j less =>
    cases e <;> cases h
    have hless : less = decide (m.demUnit i < m.supUnit j) := hk
    subst hless
    exact ⟨hm, take_le (hm.dem i).1 (hm.sup j).1⟩
  | loadDem j take =>
    cases e <;> cases h
    exact ⟨hm, hk.1, hk.2.1, hk.2.2, rfl⟩
  | storeDem j take dem =>
    cases e <;> cases h
    obtain ⟨h0, hdem, hsup, rfl⟩ := hk
    have hmax : m.demUnit i ≤ c.demandUnit := (hm.dem i).2
    rw [wrap32_sub h0 hdem (le_trans hmax c.demandOk.2)]
    exact ⟨hm.setDem ⟨sub_nonneg.mpr hdem, le_trans (sub_le_self _ h0) hmax⟩, h0, hsup⟩
  | loadSup j take =>
    cases e <;> cases h
    exact ⟨hm, hk.1, hk.2, rfl⟩
  | storeSup j take sup =>
    cases e <;> cases h
    obtain ⟨h0, hsup, rfl⟩ := hk
    have hmax : m.supUnit j ≤ INT_MAX := (hm.sup j).2
    rw [wrap32_sub h0 hsup hmax]
    exact ⟨hm.setSup ⟨sub_nonneg.mpr hsup, le_trans (sub_le_self _ h0) hmax⟩, trivial⟩
  | unlock j satisfied =>
    cases e with
    | pick j => cases h
    | ok =>
      cases h
      cases satisfied <;> exact ⟨hm, trivial⟩
    | fail => cases h; exact ⟨hm, trivial⟩
  | storeJobs jobs =>
    cases e <;> cases h
    exact ⟨⟨hm.dem, hm.sup⟩, trivial⟩
  | _ => cases e <;> cases h <;> exact ⟨hm, by trivial⟩

theorem supply_knows {j : Fin c.supNum} {pc pc' : SupplierPlace} (hm : InBounds m)
    (hk : pc.Knows j m) (hfits : ∀ sup, pc = .storeSup sup → sup + c.supplyUnit ≤ INT_MAX)
    (h : supply c j pc m e = some (pc', m', op)) : InBounds m' ∧ pc'.Knows j m' := by
  cases pc with
  | storeSup sup =>
    cases e <;> cases h
    have hsup : sup = m.supUnit j := hk
    have h0 : 0 ≤ sup + c.supplyUnit :=
      add_nonneg (hsup ▸ (hm.sup j).1) (le_of_lt c.supplyOk.1)
    have hmax := hfits sup rfl
    rw [wrap32_of_inRange ⟨le_trans (by decide) h0, hmax⟩]
    have hset := hm.setSup (j := j) ⟨h0, hmax⟩
    exact ⟨⟨hset.dem, hset.sup⟩, trivial⟩
  | jobsUnlock done =>
    cases e with
    | pick j => cases h
    | ok =>
      cases h
      cases done <;> exact ⟨hm, trivial⟩
    | fail => cases h; exact ⟨hm, trivial⟩
  | _ => cases e <;> cases h <;> exact ⟨hm, by trivial⟩

/-! ## 3. What a process leaves alone -/

/-- The cells that a process without the semaphores `H` and which is not consumer `i` cannot
    have changed. -/
structure Untouched (H : Set Sem) (m m' : Shared c) : Prop where
  sup : ∀ j, c.stockSem j ∉ H → m'.supUnit j = m.supUnit j

theorem consume_untouched {i : Fin c.consNum} {pc pc' : ConsumerPlace c}
    (h : consume c i pc m e = some (pc', m', op)) :
    (∀ i', i' ≠ i → m'.demUnit i' = m.demUnit i') ∧ Untouched pc.held m m' := by
  cases pc with
  | storeDem j take dem =>
    cases e <;> cases h
    exact ⟨fun i' hi => Function.update_of_ne hi _ _, ⟨fun _ _ => rfl⟩⟩
  | storeSup j take sup =>
    cases e <;> cases h
    refine ⟨fun _ _ => rfl, ⟨fun j' hj' => Function.update_of_ne (fun hj => hj' ?_) _ _⟩⟩
    rw [hj]
    exact rfl
  | _ => cases e <;> cases h <;> exact ⟨fun _ _ => rfl, ⟨fun _ _ => rfl⟩⟩

theorem supply_untouched {j : Fin c.supNum} {pc pc' : SupplierPlace}
    (h : supply c j pc m e = some (pc', m', op)) :
    m'.demUnit = m.demUnit ∧ Untouched (pc.held j) m m' := by
  cases pc with
  | storeSup sup =>
    cases e <;> cases h
    refine ⟨rfl, ⟨fun j' hj' => Function.update_of_ne (fun hj => hj' ?_) _ _⟩⟩
    rw [hj]
    exact rfl
  | _ => cases e <;> cases h <;> exact ⟨rfl, ⟨fun _ _ => rfl⟩⟩

/-- What a consumer knows, it knows as long as its demand and the stock it has locked stay. -/
theorem ConsumerPlace.Knows.stable {i : Fin c.consNum} {pc : ConsumerPlace c}
    (hk : pc.Knows i m) (hdem : m'.demUnit i = m.demUnit i)
    (hsup : ∀ j, c.stockSem j ∈ pc.held → m'.supUnit j = m.supUnit j) : pc.Knows i m' := by
  cases pc with
  | readSup j dem =>
    show dem = m'.demUnit i
    rw [hdem]
    exact hk
  | readTake j less =>
    show less = decide (m'.demUnit i < m'.supUnit j)
    rw [hdem, hsup j rfl]
    exact hk
  | loadDem j take =>
    show 0 ≤ take ∧ take ≤ m'.demUnit i ∧ take ≤ m'.supUnit j
    rw [hdem, hsup j rfl]
    exact hk
  | storeDem j take dem =>
    show 0 ≤ take ∧ take ≤ dem ∧ take ≤ m'.supUnit j ∧ dem = m'.demUnit i
    rw [hdem, hsup j rfl]
    exact hk
  | loadSup j take =>
    show 0 ≤ take ∧ take ≤ m'.supUnit j
    rw [hsup j rfl]
    exact hk
  | storeSup j take sup =>
    show 0 ≤ take ∧ take ≤ sup ∧ sup = m'.supUnit j
    rw [hsup j rfl]
    exact hk
  | _ => trivial

theorem SupplierPlace.Knows.stable {j : Fin c.supNum} {pc : SupplierPlace}
    (hk : pc.Knows j m)
    (hsup : ∀ j', c.stockSem j' ∈ pc.held j → m'.supUnit j' = m.supUnit j') : pc.Knows j m' := by
  cases pc with
  | storeSup sup =>
    show sup = m'.supUnit j
    rw [hsup j rfl]
    exact hk
  | _ => trivial

/-- **Another process**, with none of the same semaphores, leaves the knowledge as it is. -/
theorem knows_stable {p q : Proc c} {pc : Place c p} {pc' : Place c p} {at_q : Place c q}
    (hne : q ≠ p) (h : program c p pc m e = some (pc', m', op))
    (hapart : ∀ x ∈ held p pc, x ∉ held q at_q) (hk : Knows q at_q m) : Knows q at_q m' := by
  have hout : Untouched (held p pc) m m' := by
    cases p with
    | inl i => exact (consume_untouched h).2
    | inr j => exact (supply_untouched h).2
  have hsup : ∀ j, c.stockSem j ∈ held q at_q → m'.supUnit j = m.supUnit j := by
    intro j hj
    exact hout.sup j fun hp => hapart _ hp hj
  cases q with
  | inr j => exact SupplierPlace.Knows.stable hk hsup
  | inl i =>
    refine ConsumerPlace.Knows.stable hk ?_ hsup
    cases p with
    | inl i' => exact (consume_untouched h).1 i fun hi => hne (congrArg Sum.inl hi)
    | inr j => exact congrFun (supply_untouched h).1 i

/-! ## 4. The balance -/

/-- Stock and satisfied demand, less what was restocked. -/
def units (m : Shared c) : Int :=
  ∑ j, m.supUnit j + ∑ i, (c.demandUnit - m.demUnit i) - c.supplyUnit * m.restocks

theorem units_setDem (m : Shared c) (i : Fin c.consNum) (x : Int) :
    units (m.setDem i x) = units m + (m.demUnit i - x) := by
  have hsum := sum_update (fun _ (d : Int) => c.demandUnit - d) m.demUnit i x
  unfold units
  show ∑ j, m.supUnit j + ∑ i', (c.demandUnit - Function.update m.demUnit i x i') -
    c.supplyUnit * m.restocks = _
  rw [hsum]
  ring

theorem units_setSup (m : Shared c) (j : Fin c.supNum) (x : Int) :
    units (m.setSup j x) = units m + (x - m.supUnit j) := by
  have hsum := sum_update (fun _ (d : Int) => d) m.supUnit j x
  unfold units
  show ∑ j', Function.update m.supUnit j x j' + ∑ i, (c.demandUnit - m.demUnit i) -
    c.supplyUnit * m.restocks = _
  rw [hsum]
  ring

theorem units_restocked (m : Shared c) : units m.restocked = units m - c.supplyUnit := by
  unfold units
  show ∑ j, m.supUnit j + ∑ i, (c.demandUnit - m.demUnit i) -
    c.supplyUnit * ((m.restocks + 1 : Nat) : Int) = _
  push_cast
  ring

theorem consume_balance {i : Fin c.consNum} {pc pc' : ConsumerPlace c} (hm : InBounds m)
    (hk : pc.Knows i m) (h : consume c i pc m e = some (pc', m', op)) :
    units m' - units m = pc'.inHand - pc.inHand := by
  cases pc with
  | testSup j =>
    cases e <;> cases h
    split <;> exact sub_self _
  | storeDem j take dem =>
    cases e <;> cases h
    obtain ⟨h0, hdem, -, rfl⟩ := hk
    rw [wrap32_sub h0 hdem (le_trans (hm.dem i).2 c.demandOk.2), units_setDem]
    show units m + (m.demUnit i - (m.demUnit i - take)) - units m = take - 0
    ring
  | storeSup j take sup =>
    cases e <;> cases h
    obtain ⟨h0, hsup, rfl⟩ := hk
    rw [wrap32_sub h0 hsup (hm.sup j).2, units_setSup]
    show units m + (m.supUnit j - take - m.supUnit j) - units m = 0 - take
    ring
  | loadSup j take =>
    cases e <;> cases h
    show units m - units m = take - take
    ring
  | unlock j satisfied =>
    cases e with
    | pick j => cases h
    | ok =>
      cases h
      cases satisfied <;> exact sub_self _
    | fail => cases h; exact sub_self _
  | _ => cases e <;> cases h <;> exact sub_self _

theorem supply_balance {j : Fin c.supNum} {pc pc' : SupplierPlace} (hm : InBounds m)
    (hk : pc.Knows j m) (hfits : ∀ sup, pc = .storeSup sup → sup + c.supplyUnit ≤ INT_MAX)
    (h : supply c j pc m e = some (pc', m', op)) : units m' - units m = 0 := by
  cases pc with
  | storeSup sup =>
    cases e <;> cases h
    have hsup : sup = m.supUnit j := hk
    have h0 : 0 ≤ sup + c.supplyUnit :=
      add_nonneg (hsup ▸ (hm.sup j).1) (le_of_lt c.supplyOk.1)
    rw [wrap32_of_inRange ⟨le_trans (by decide) h0, hfits sup rfl⟩, units_restocked,
      units_setSup, hsup]
    ring
  | _ => cases e <;> cases h <;> exact sub_self _

/-! ## 5. Every run -/

/-- The invariant of the runs. -/
structure Inv (s : State c) : Prop where
  sound : Sound held InBounds Knows s
  balanced : Balanced units inHand (c.supNum * c.supplyUnit) s

theorem inv_init (c : Config) : Inv (init c) := by
  have hplace : ∀ p, held p (entry c p) = ∅ ∧ inHand p (entry c p) = 0 ∧
      ∀ m, Knows p (entry c p) m := by
    intro p
    cases p with
    | inl i =>
      cases hv : c.version <;> simp only [entry, hv] <;> exact ⟨rfl, rfl, fun _ => trivial⟩
    | inr j =>
      cases hv : c.version <;> simp only [entry, hv] <;> exact ⟨rfl, rfl, fun _ => trivial⟩
  refine ⟨⟨.initial (fun p => (hplace p).1) fun _ => rfl, ⟨fun _ => ?_, fun _ => ?_⟩,
    fun p => (hplace p).2.2 _⟩, ?_⟩
  · exact ⟨le_of_lt c.demandOk.1, le_refl _⟩
  · exact ⟨le_of_lt c.supplyOk.1, c.supplyOk.2⟩
  · show units (init c).mem = c.supNum * c.supplyUnit + ∑ p, inHand p (entry c p)
    rw [Finset.sum_eq_zero fun p _ => (hplace p).2.1]
    simp [units, init]

theorem fits_storeSup {s : State c} {j : Fin c.supNum} (hfits : Fits s (.inr j, e)) {sup : Int}
    (hpc : s.pc (.inr j) = .storeSup sup) : sup + c.supplyUnit ≤ INT_MAX := by
  unfold Fits at hfits
  dsimp only at hfits
  rw [hpc] at hfits
  exact hfits

theorem inv_step (s : State c) (a : Proc c × Event c) (s' : State c) (h : Inv s)
    (hfits : Fits s a) (hstep : step c s a = some s') : Inv s' := by
  obtain ⟨p, e⟩ := a
  refine ⟨h.sound.step (program_disciplined c) ?_ ?_ hstep, h.balanced.step ?_ hstep⟩
  · intro pc m op hnext
    cases p with
    | inl i => exact consume_knows h.sound.mem (h.sound.knows (.inl i)) hnext
    | inr j =>
      exact supply_knows h.sound.mem (h.sound.knows (.inr j)) (fun sup => fits_storeSup hfits)
        hnext
  · intro q pc m op hne hnext hapart hk
    exact knows_stable hne hnext hapart hk
  · intro pc m op hnext
    cases p with
    | inl i => exact consume_balance h.sound.mem (h.sound.knows (.inl i)) hnext
    | inr j =>
      exact supply_balance h.sound.mem (h.sound.knows (.inr j)) (fun sup => fits_storeSup hfits)
        hnext

theorem inv_reaches {s : State c} (h : Reaches (step c) Fits (init c) s) : Inv s :=
  h.invariant (inv_init c) inv_step

/-- The consumer has stored its demand, and not yet the stock. -/
def ConsumerPlace.Between : ConsumerPlace c → Prop
  | .loadSup _ _ | .storeSup _ _ _ => True
  | _ => False

def BetweenUpdates (s : State c) (i : Fin c.consNum) : Prop :=
  ConsumerPlace.Between (s.pc (.inl i))

theorem inHand_of_not_between {pc : ConsumerPlace c} (h : ¬ pc.Between) : pc.inHand = 0 := by
  cases pc with
  | loadSup j take => exact absurd trivial h
  | storeSup j take sup => exact absurd trivial h
  | _ => rfl

/-- **No run loses or makes a unit.** -/
theorem units_conserved {s : State c} (h : Reaches (step c) Fits (init c) s) :
    (∀ i, 0 ≤ s.mem.demUnit i ∧ s.mem.demUnit i ≤ c.demandUnit) ∧
      (∀ j, 0 ≤ s.mem.supUnit j) ∧
      ((∀ i, ¬ BetweenUpdates s i) →
        ∑ j, s.mem.supUnit j + ∑ i, (c.demandUnit - s.mem.demUnit i) =
          c.supNum * c.supplyUnit + c.supplyUnit * s.mem.restocks) := by
  have hinv := inv_reaches h
  refine ⟨hinv.sound.mem.dem, fun j => (hinv.sound.mem.sup j).1, fun hquiet => ?_⟩
  have hnone : ∑ p, inHand p (s.pc p) = 0 := by
    refine Finset.sum_eq_zero fun p _ => ?_
    cases p with
    | inl i => exact inHand_of_not_between (hquiet i)
    | inr j => rfl
  have hbalance : units s.mem = c.supNum * c.supplyUnit + ∑ p, inHand p (s.pc p) :=
    hinv.balanced
  rw [hnone, units] at hbalance
  linarith

/-- One consumer and one supplier. -/
def smallShop : Config where
  version := .systemV
  consNum := 1
  supNum := 1
  demandUnit := 3
  supplyUnit := 5
  consPos := by decide
  supPos := by decide
  demandOk := by decide
  supplyOk := by decide

def buyer : Fin smallShop.consNum := ⟨0, smallShop.consPos⟩
def seller : Fin smallShop.supNum := ⟨0, smallShop.supPos⟩

/-- The consumer attaches the segment and buys what it needs. -/
def purchase : List (Proc smallShop × Event smallShop) :=
  (.inl buyer, .ok) :: (.inl buyer, .pick seller) :: List.replicate 10 (.inl buyer, .ok)

theorem units_conserved_purchase :
    ∃ s : State smallShop, run (step smallShop) purchase (init smallShop) = some s ∧
      s.mem.demUnit buyer = 0 ∧ s.mem.supUnit seller = 2 ∧
      ∑ j, s.mem.supUnit j + ∑ i, (smallShop.demandUnit - s.mem.demUnit i) =
        smallShop.supNum * smallShop.supplyUnit + smallShop.supplyUnit * s.mem.restocks := by
  have hfits : ∀ a ∈ purchase, ∀ s, Fits s a := by
    intro a ha s
    simp only [purchase, List.mem_cons, List.mem_replicate] at ha
    rcases ha with rfl | rfl | ⟨-, rfl⟩ <;> trivial
  refine ⟨_, rfl, rfl, rfl, (units_conserved (reaches_of_run hfits .start rfl)).2.2 ?_⟩
  intro i hbetween
  have hi : i = buyer := Fin.ext (Nat.lt_one_iff.mp i.isLt)
  subst hi
  exact hbetween

end ConsumerSupplier
end Labs
