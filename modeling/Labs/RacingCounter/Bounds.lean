import Labs.RacingCounter.Program

/-!
# How much of the increments is left

Without the mutex an increment is a load and a store, and the stores of the others that come in
between are lost. How much can get lost depends on where the load is.

* The counter never gets above the number of stores so far, and no thread has more than that in its
  hands (`Inv.hand`).
* With a load in every round, whoever has stored before has seen a counter that is not zero. So the
  last store leaves at least 2, however many threads there are and however often they go round.
* With one load before the loop, a thread counts on from what it has found there, so the last one
  to store leaves at least `INCR_MAX`.

## Two invariants for one number

From above, nothing is ever made: a thread stores what it has loaded and one more, and each store is
one of finitely many. So the counter is at most the number of stores, and what a thread has in its
hands is at most that too, since it was the counter once. With the last store the number of stores
is that of all rounds, which is the bound.

From below it is the last store that matters, whoever makes it. `Floor` says how little a thread can
have in its hands. With a load in every round that is one, if the thread has stored before, since
the counter is positive from the first store on. With a single load it is what the thread has
counted itself.

Both are kept by a step of any thread, and a step either leaves the counter alone or is a store
(`threadIncrement_cases`). That the bounds are reached is shown by runs in `FinalValues`.
-/

namespace Labs
namespace RacingCounter

open Lib

variable {c : Config} {v : Version} {n : Int} {m m' : Shared} {op : SemOp Empty} {pc pc' : Place}
  {s s' : State c}

/-! ## 1. One step -/

/-- How often the thread has stored. -/
def Place.stores (n : Int) : Place → Int
  | .test i _ => i
  | .load i _ => i
  | .store i _ => i
  | .printf i _ => i + 1
  | .returned => n

def Place.Fits (n : Int) : Place → Prop
  | .test i _ => 0 ≤ i ∧ i ≤ n
  | .load i _ => 0 ≤ i ∧ i < n
  | .store i _ => 0 ≤ i ∧ i < n
  | .printf i _ => 0 ≤ i ∧ i < n
  | .returned => 0 ≤ n

/-- What the thread would store if it went on. -/
def Version.inHand : Version → Place → Int
  | .totalOverwrite, .test _ tmp => tmp
  | _, .store _ tmp => tmp
  | .totalOverwrite, .printf _ tmp => tmp
  | _, _ => 0

def Version.Within (v : Version) (total : Int) (pc : Place) : Prop :=
  0 ≤ v.inHand pc ∧ v.inHand pc ≤ total

/-- How little a thread has in its hands. -/
def Version.Floor : Version → Place → Prop
  | .totalOverwrite, .test i tmp => i ≤ tmp
  | .totalOverwrite, .store i tmp => i ≤ tmp
  | .totalOverwrite, .printf i tmp => i + 1 ≤ tmp
  | .totalOverwrite, .load i _ => i ≤ 0
  | .totalOverwrite, .returned => True
  | _, .store i tmp => 1 ≤ i → 1 ≤ tmp
  | _, _ => True

/-- What the last store leaves at least. -/
def Version.least : Version → Int → Int
  | .totalOverwrite, n => n
  | _, _ => 2

theorem Place.Fits.stores_le (h : pc.Fits n) : 0 ≤ pc.stores n ∧ pc.stores n ≤ n := by
  cases pc <;> simp only [Place.Fits, Place.stores] at h ⊢ <;> omega

theorem wrap32_next {i : Int} (hn : n ≤ INT_MAX) (h0 : 0 ≤ i) (hi : i < n) :
    wrap32 (i + 1) = i + 1 := by
  apply wrap32_of_inRange
  constructor
  · exact Int.le_trans (by decide) (Int.add_le_add_right h0 1)
  · exact Int.le_trans hi hn

/-- What a thread gets out of a step that is no store: the counter it has loaded, or what it had. -/
structure Quiet (v : Version) (n : Int) (m m' : Shared) (pc pc' : Place) : Prop where
  a : m'.a = m.a
  stores : pc'.stores n = pc.stores n
  hand : v.inHand pc' = v.inHand pc ∨ v.inHand pc' = m.a ∨ v.inHand pc' = 0
  floor : v.Floor pc → 0 ≤ m.a → (1 ≤ pc.stores n → 1 ≤ m.a) → v.Floor pc'

/-- **What a step can be**: one that leaves the counter alone, or the store of what the thread had
    in its hands and one more. -/
theorem threadIncrement_cases (hpos : 0 < n) (hn : n ≤ INT_MAX) (hfits : pc.Fits n)
    (h : v.threadIncrement n pc m = some (pc', m', op)) :
    pc'.Fits n ∧ op = .skip ∧ (Quiet v n m m' pc pc' ∨
      ∃ i tmp, pc = .store i tmp ∧ m'.a = wrap64 (tmp + 1) ∧ pc'.stores n = i + 1 ∧
        (v.inHand pc' = wrap64 (tmp + 1) ∨ v.inHand pc' = 0) ∧
        (v.Floor pc → wrap64 (tmp + 1) = tmp + 1 → v.Floor pc')) := by
  cases pc with
  | test i tmp =>
    obtain ⟨h0, hi⟩ := hfits
    by_cases hlt : i < n
    · cases v <;> simp only [Version.threadIncrement, PartialOverwrite.threadIncrement,
        NoPrintf.threadIncrement, TotalOverwrite.threadIncrement, if_pos hlt] at h <;> cases h
      · exact ⟨⟨h0, hlt⟩, rfl, .inl ⟨rfl, rfl, .inl rfl, fun _ _ _ => trivial⟩⟩
      · exact ⟨⟨h0, hlt⟩, rfl, .inl ⟨rfl, rfl, .inl rfl, fun _ _ _ => trivial⟩⟩
      · exact ⟨⟨h0, hlt⟩, rfl, .inl ⟨rfl, rfl, .inl rfl, fun hf _ _ => hf⟩⟩
    · have hall : i = n := by omega
      subst hall
      cases v <;> simp only [Version.threadIncrement, PartialOverwrite.threadIncrement,
        NoPrintf.threadIncrement, TotalOverwrite.threadIncrement, if_neg hlt] at h <;> cases h
      all_goals exact ⟨h0, rfl, .inl ⟨rfl, rfl, .inr (.inr rfl), fun _ _ _ => trivial⟩⟩
  | load i tmp =>
    obtain ⟨h0, hi⟩ := hfits
    cases v <;> cases h
    · exact ⟨⟨h0, hi⟩, rfl, .inl ⟨rfl, rfl, .inr (.inl rfl), fun _ _ hseen => hseen⟩⟩
    · exact ⟨⟨h0, hi⟩, rfl, .inl ⟨rfl, rfl, .inr (.inl rfl), fun _ _ hseen => hseen⟩⟩
    · refine ⟨⟨h0, le_of_lt hi⟩, rfl, .inl ⟨rfl, rfl, .inr (.inl rfl), fun hf ha _ => ?_⟩⟩
      exact Int.le_trans hf ha
  | store i tmp =>
    obtain ⟨h0, hi⟩ := hfits
    have hnext := wrap32_next hn h0 hi
    cases v <;> cases h
    · exact ⟨⟨h0, hi⟩, rfl, .inr ⟨i, tmp, rfl, rfl, rfl, .inr rfl, fun _ _ => trivial⟩⟩
    · refine ⟨?_, rfl, .inr ⟨i, tmp, rfl, rfl, hnext, .inr rfl, fun _ _ => trivial⟩⟩
      rw [hnext]
      exact ⟨Int.add_nonneg h0 Int.one_nonneg, hi⟩
    · refine ⟨⟨h0, hi⟩, rfl, .inr ⟨i, tmp, rfl, rfl, rfl, .inl rfl, fun hf hw => ?_⟩⟩
      show i + 1 ≤ wrap64 (tmp + 1)
      rw [hw]
      exact Int.add_le_add_right hf 1
  | printf i tmp =>
    obtain ⟨h0, hi⟩ := hfits
    have hnext := wrap32_next hn h0 hi
    have hfits' : 0 ≤ wrap32 (i + 1) ∧ wrap32 (i + 1) ≤ n := by
      rw [hnext]
      exact ⟨Int.add_nonneg h0 Int.one_nonneg, hi⟩
    cases v <;> cases h
    · exact ⟨hfits', rfl, .inl ⟨rfl, hnext, .inl rfl, fun _ _ _ => trivial⟩⟩
    · refine ⟨hfits', rfl, .inl ⟨rfl, hnext, .inl rfl, fun hf _ _ => ?_⟩⟩
      show wrap32 (i + 1) ≤ tmp
      rw [hnext]
      exact hf
  | returned => cases v <;> cases h

/-! ## 2. Every run -/

/-- How often the threads have stored. -/
def stored (s : State c) : Int := ∑ p, (s.pc p).stores c.incrMax

structure Inv (s : State c) : Prop where
  fits : ∀ p, (s.pc p).Fits c.incrMax
  nonneg : 0 ≤ s.mem.a
  counted : s.mem.a ≤ stored s
  hand : ∀ p, c.version.Within (stored s) (s.pc p)
  floor : ∀ p, c.version.Floor (s.pc p)
  begun : ∀ p, 1 ≤ (s.pc p).stores c.incrMax → 1 ≤ s.mem.a
  ended : (∀ p, (s.pc p).stores c.incrMax = c.incrMax) → c.version.least c.incrMax ≤ s.mem.a

theorem inv_init (hthreads : 0 < c.threadNum) (hpos : 2 ≤ c.incrMax) : Inv (init c) := by
  have hstores : ∀ p, ((init c).pc p).stores c.incrMax = 0 := by
    intro p
    show c.version.entry.stores c.incrMax = 0
    cases c.version <;> rfl
  have hsum : stored (init c) = 0 := Finset.sum_eq_zero fun p _ => hstores p
  refine ⟨fun p => ?_, le_refl 0, ?_, fun p => ?_, fun p => ?_, fun p hp => ?_, fun hall => ?_⟩
  · show c.version.entry.Fits c.incrMax
    cases c.version <;> simp only [Version.entry, Place.Fits] <;> omega
  · rw [hsum]
    exact le_refl 0
  · rw [hsum]
    show c.version.Within 0 c.version.entry
    cases c.version <;> exact ⟨le_refl 0, le_refl 0⟩
  · show c.version.Floor c.version.entry
    cases c.version
    · trivial
    · trivial
    · exact le_refl 0
  · rw [hstores p] at hp
    omega
  · have hp := hall ⟨0, hthreads⟩
    rw [hstores] at hp
    omega

theorem stored_le (hfits : ∀ p, (s.pc p).Fits c.incrMax) : stored s ≤ c.threadNum * c.incrMax := by
  have hle := Finset.sum_le_sum fun p (_ : p ∈ Finset.univ) => (hfits p).stores_le.2
  simpa [stored] using hle

/-- While a thread has a store before it, not all have been made. -/
theorem stored_lt {p : Fin c.threadNum} (hfits : ∀ p, (s.pc p).Fits c.incrMax)
    (hp : (s.pc p).stores c.incrMax < c.incrMax) : stored s < c.threadNum * c.incrMax := by
  have hlt : stored s < ∑ _p : Fin c.threadNum, (c.incrMax : Int) :=
    Finset.sum_lt_sum (fun q _ => (hfits q).stores_le.2) ⟨p, Finset.mem_univ p, hp⟩
  simpa using hlt

/-- What holds at every place holds after a step, if it does at the new place. -/
theorem forall_update {T : Type} [DecidableEq T] {pcs : T → Place} {p : T} {Q : Place → Prop}
    (hnew : Q pc) (hold : ∀ q, Q (pcs q)) : ∀ q, Q (Function.update pcs p pc q) := by
  intro q
  by_cases hq : q = p
  · subst hq
    rw [Function.update_self]
    exact hnew
  · rw [Function.update_of_ne hq]
    exact hold q

theorem stored_update (s : State c) (p : Fin c.threadNum) (pc : Place) (m : Shared)
    (sem : Empty → Int) : stored ⟨Function.update s.pc p pc, m, sem⟩ =
      stored s + (pc.stores c.incrMax - (s.pc p).stores c.incrMax) :=
  sum_update (fun (_ : Fin c.threadNum) (pc : Place) => pc.stores c.incrMax) s.pc p pc

theorem Inv.quiet {p : Fin c.threadNum} {sem : Empty → Int} (h : Inv s)
    (hfits : pc.Fits c.incrMax) (hquiet : Quiet c.version c.incrMax s.mem m (s.pc p) pc) :
    Inv ⟨Function.update s.pc p pc, m, sem⟩ := by
  obtain ⟨ha, hstores, hhand, hfloor⟩ := hquiet
  have hsame : stored ⟨Function.update s.pc p pc, m, sem⟩ = stored s := by
    rw [stored_update, hstores, sub_self, add_zero]
  refine ⟨forall_update hfits h.fits, ?_, ?_, ?_, forall_update ?_ h.floor, ?_, ?_⟩
  · rw [ha]
    exact h.nonneg
  · rw [ha, hsame]
    exact h.counted
  · rw [hsame]
    refine forall_update ?_ h.hand
    rcases hhand with hold | hload | hnone
    · rw [Version.Within, hold]
      exact h.hand p
    · rw [Version.Within, hload]
      exact ⟨h.nonneg, h.counted⟩
    · rw [Version.Within, hnone]
      exact ⟨le_refl 0, Int.le_trans h.nonneg h.counted⟩
  · exact hfloor (h.floor p) h.nonneg (h.begun p)
  · show ∀ q, 1 ≤ (Function.update s.pc p pc q).stores c.incrMax → 1 ≤ m.a
    rw [ha]
    apply forall_update (Q := fun pc => 1 ≤ pc.stores c.incrMax → 1 ≤ s.mem.a)
    · rw [hstores]
      exact h.begun p
    · exact h.begun
  · intro hall
    change ∀ q, (Function.update s.pc p pc q).stores c.incrMax = c.incrMax at hall
    show c.version.least c.incrMax ≤ m.a
    rw [ha]
    apply h.ended
    intro q
    have hq := hall q
    by_cases hqp : q = p
    · subst hqp
      rwa [Function.update_self, hstores] at hq
    · rwa [Function.update_of_ne hqp] at hq

theorem Inv.store {p : Fin c.threadNum} {sem : Empty → Int} {i tmp : Int} (h : Inv s)
    (hpos : 2 ≤ c.incrMax) (hlong : (c.threadNum * c.incrMax : Int) ≤ LONG_MAX)
    (hpc : s.pc p = .store i tmp) (hfits : pc.Fits c.incrMax) (ha : m.a = wrap64 (tmp + 1))
    (hstores : pc.stores c.incrMax = i + 1)
    (hhand : c.version.inHand pc = wrap64 (tmp + 1) ∨ c.version.inHand pc = 0)
    (hfloor : c.version.Floor (s.pc p) → wrap64 (tmp + 1) = tmp + 1 → c.version.Floor pc) :
    Inv ⟨Function.update s.pc p pc, m, sem⟩ := by
  have hbefore := h.fits p
  rw [hpc] at hbefore
  obtain ⟨h0, hi⟩ := hbefore
  have hold : (s.pc p).stores c.incrMax = i := by
    rw [hpc]
    rfl
  have hinHand : c.version.inHand (s.pc p) = tmp := by
    rw [hpc]
    cases c.version <;> rfl
  obtain ⟨htmp0, htmp⟩ := h.hand p
  rw [hinHand] at htmp0 htmp
  -- this store has not been counted yet, so there is room for it
  have hroom : stored s < c.threadNum * c.incrMax := by
    apply stored_lt h.fits (p := p)
    rw [hold]
    exact hi
  have hwrap : wrap64 (tmp + 1) = tmp + 1 := wrap64_of_long (by omega) (by omega)
  rw [hwrap] at ha hhand
  have hmore : stored ⟨Function.update s.pc p pc, m, sem⟩ = stored s + 1 := by
    rw [stored_update, hstores, hold]
    omega
  refine ⟨forall_update hfits h.fits, ?_, ?_, ?_, forall_update ?_ h.floor, ?_, ?_⟩
  · show 0 ≤ m.a
    rw [ha]
    omega
  · show m.a ≤ _
    rw [ha, hmore]
    omega
  · rw [hmore]
    apply forall_update
    · rcases hhand with hh | hh <;> rw [Version.Within, hh] <;> omega
    · intro q
      exact ⟨(h.hand q).1, Int.le_trans (h.hand q).2 (Int.le_add_of_nonneg_right Int.one_nonneg)⟩
  · exact hfloor (h.floor p) hwrap
  · intro q _
    show 1 ≤ m.a
    rw [ha]
    omega
  · intro hall
    change ∀ q, (Function.update s.pc p pc q).stores c.incrMax = c.incrMax at hall
    have hlast := hall p
    rw [Function.update_self, hstores] at hlast
    have hleast := h.floor p
    rw [hpc] at hleast
    show c.version.least c.incrMax ≤ m.a
    rw [ha]
    cases hv : c.version <;> rw [hv] at hleast <;> simp only [Version.Floor] at hleast <;>
      simp only [Version.least] <;> omega

theorem Inv.step {a : Fin c.threadNum × Unit} (h : Inv s) (hpos : 2 ≤ c.incrMax)
    (hint : (c.incrMax : Int) ≤ INT_MAX) (hlong : (c.threadNum * c.incrMax : Int) ≤ LONG_MAX)
    (hstep : step c s a = some s') : Inv s' := by
  obtain ⟨p, e⟩ := a
  obtain ⟨pc, m, op, sem, hnext, -, rfl⟩ := Sys.step_cases hstep
  change c.version.threadIncrement c.incrMax (s.pc p) s.mem = some (pc, m, op) at hnext
  have hn : (0 : Int) < c.incrMax := by omega
  obtain ⟨hfits, -, hquiet | ⟨i, tmp, hpc, ha, hstores, hhand, hfloor⟩⟩ :=
    threadIncrement_cases hn hint (h.fits p) hnext
  · exact h.quiet hfits hquiet
  · exact h.store hpos hlong hpc hfits ha hstores hhand hfloor

/-- What is found after the last join lies in between. -/
theorem FinalValue.bounds {x : Int} (hthreads : 0 < c.threadNum) (hpos : 2 ≤ c.incrMax)
    (hint : (c.incrMax : Int) ≤ INT_MAX) (hlong : (c.threadNum * c.incrMax : Int) ≤ LONG_MAX)
    (h : FinalValue c x) : c.version.least c.incrMax ≤ x ∧ x ≤ c.threadNum * c.incrMax := by
  obtain ⟨s, hreach, hall, rfl⟩ := h
  have hinv : Inv s := hreach.invariant (inv_init hthreads hpos)
    fun _ _ _ h _ hstep => h.step hpos hint hlong hstep
  constructor
  · apply hinv.ended
    intro p
    rw [hall p]
    rfl
  · exact Int.le_trans hinv.counted (stored_le hinv.fits)

end RacingCounter
end Labs
