import Labs.Lib.Solo
import Labs.RacingCounter.Bounds

/-!
# What the threads can end with

Everything between the least value that the last store can leave and the full count is what some
order of the accesses leads to.

With a load in every round, one thread loads the zero and stores what it makes of it after any
number of rounds of the others (`exists_lost`). These go on until one of them has one round left.
In that round it loads, and it stores after any number of rounds of the slow thread
(`Started.finish`). With one load before the loop, the thread that stores last loads when the others
have counted to any number (`exists_counted_up`).

## Lower bounds are not enough

`Bounds` proves that no run ends with less. That says nothing about whether the bound is reached, or
what lies between it and the full count, and for races like these the interesting part is that
everything does. So runs are constructed, for every value, every number of threads and every count.

A run is composed of stretches in which one thread moves alone (`Alone`), which makes each stretch a
calculation; between two stretches a state is described by where each thread stands before its next
test (`Waiting`). The induction over a set of threads that do some rounds between them is done once.

The least value is where the two versions part. When a thread reloads in every round, two threads
are enough to bring the count down to 2, whatever the others have done: a slow one that stores what
it made of zero, and a last one that has loaded just then. With one load before the loop a thread
stores its own count as it goes, so no value below `INCR_MAX` is possible, and every other one is.
-/

namespace Labs
namespace RacingCounter

open Lib

variable {c : Config} {m : Shared} {pc : Place} {s s' : State c}

/-! ## 1. One thread at a time -/

def Goes (s s' : State c) : Prop := Reaches (step c) (fun _ _ => True) s s'

/-- Only `p` moves. -/
abbrev Alone (p : Fin c.threadNum) (s s' : State c) : Prop := Lib.Alone (program c) p s s'

theorem exists_alone (s : State c) (p : Fin c.threadNum) (pc : Place) (m : Shared)
    (h : c.version.threadIncrement c.incrMax (s.pc p) s.mem = some (pc, m, .skip)) :
    ∃ s', Alone p s s' ∧ s'.pc p = pc ∧ s'.mem = m :=
  Lib.exists_alone s p () pc m h

/-- From the store to the next test of the loop. -/
theorem exists_stored {p : Fin c.threadNum} {i tmp : Int} (hpc : s.pc p = .store i tmp)
    (hint : (c.incrMax : Int) ≤ INT_MAX) (h0 : 0 ≤ i) (hi : i < c.incrMax) :
    ∃ s', Alone p s s' ∧ s'.pc p = .test (i + 1) (wrap64 (tmp + 1)) ∧
      s'.mem.a = wrap64 (tmp + 1) := by
  have hnext := wrap32_next hint h0 hi
  by_cases hv : c.version = .noPrintf
  · obtain ⟨s₁, halone, hpc₁, hm₁⟩ := exists_alone s p
      (.test (i + 1) (wrap64 (tmp + 1))) { s.mem with a := wrap64 (tmp + 1) }
      (by rw [hpc, hv]; simp [Version.threadIncrement, NoPrintf.threadIncrement, hnext])
    exact ⟨s₁, halone, hpc₁, by rw [hm₁]⟩
  · obtain ⟨s₁, halone, hpc₁, hm₁⟩ := exists_alone s p
      (.printf i (wrap64 (tmp + 1))) { s.mem with a := wrap64 (tmp + 1) }
      (by rw [hpc]; cases hw : c.version <;> first | rfl | exact absurd hw hv)
    obtain ⟨s₂, halone₂, hpc₂, hm₂⟩ := exists_alone s₁ p
      (.test (i + 1) (wrap64 (tmp + 1)))
      { s₁.mem with printed := s₁.mem.printed ++ [s₁.mem.a] }
      (by
        rw [hpc₁]
        cases hw : c.version
        · simp [Version.threadIncrement, PartialOverwrite.threadIncrement, hnext]
        · exact absurd hw hv
        · simp [Version.threadIncrement, TotalOverwrite.threadIncrement, hnext])
    exact ⟨s₂, halone.trans halone₂, hpc₂, by rw [hm₂, hm₁]⟩

/-- The last test of the loop. -/
theorem exists_returned {p : Fin c.threadNum} {tmp : Int} (hpc : s.pc p = .test c.incrMax tmp) :
    ∃ s', Alone p s s' ∧ s'.pc p = .returned ∧ s'.mem = s.mem := by
  apply exists_alone
  rw [hpc]
  cases c.version <;> simp [Version.threadIncrement, PartialOverwrite.threadIncrement,
    NoPrintf.threadIncrement, TotalOverwrite.threadIncrement]

/-- When all have gone round often enough, the counter is what it is. -/
theorem finalValue_of_goes (hgoes : Goes (init c) s)
    (hall : ∀ p, ∃ tmp, s.pc p = .test c.incrMax tmp) : FinalValue c s.mem.a := by
  obtain ⟨s', hgoes', hin, -, hmem⟩ := exists_each (s := s)
    (Q := fun _ pc => ∃ tmp, pc = .test c.incrMax tmp) (R := fun _ pc => pc = .returned)
    (K := fun m => m = s.mem) Finset.univ
    (fun s₁ p _ hK hpc => by
      obtain ⟨tmp, htmp⟩ := hpc
      obtain ⟨s₂, halone, hpc₂, hmem⟩ := exists_returned htmp
      exact ⟨s₂, halone, hpc₂, hmem.trans hK⟩)
    rfl fun p _ => hall p
  exact ⟨s', hgoes.trans hgoes', fun p => hin p (Finset.mem_univ p), by rw [hmem]⟩

/-! ## 2. With a load in every round -/

/-- A load in the loop. -/
def Version.Reloads (v : Version) : Prop := v ≠ .totalOverwrite

theorem exists_loaded {p : Fin c.threadNum} {i tmp : Int} (hv : c.version.Reloads)
    (hpc : s.pc p = .test i tmp) (hi : i < c.incrMax) :
    ∃ s', Alone p s s' ∧ s'.pc p = .store i s.mem.a ∧ s'.mem = s.mem := by
  obtain ⟨s₁, halone, hpc₁, hm₁⟩ := exists_alone s p (.load i tmp) s.mem
    (by
      rw [hpc]
      cases hw : c.version <;> first | exact absurd hw hv | skip
      all_goals simp [Version.threadIncrement, PartialOverwrite.threadIncrement,
        NoPrintf.threadIncrement, hi])
  obtain ⟨s₂, halone₂, hpc₂, hm₂⟩ := exists_alone s₁ p (.store i s₁.mem.a) s₁.mem
    (by
      rw [hpc₁]
      cases hw : c.version <;> first | exact absurd hw hv | rfl)
  refine ⟨s₂, halone.trans halone₂, ?_, hm₂.trans hm₁⟩
  rw [hpc₂, hm₁]

/-- One round of a thread that nobody interrupts. -/
theorem exists_round {p : Fin c.threadNum} {i tmp : Int} (hv : c.version.Reloads)
    (hint : (c.incrMax : Int) ≤ INT_MAX) (hpc : s.pc p = .test i tmp) (h0 : 0 ≤ i)
    (hi : i < c.incrMax) (ha0 : 0 ≤ s.mem.a) (ha : s.mem.a + 1 ≤ LONG_MAX) :
    ∃ s' tmp', Alone p s s' ∧ s'.pc p = .test (i + 1) tmp' ∧ s'.mem.a = s.mem.a + 1 := by
  obtain ⟨s₁, halone, hpc₁, hm₁⟩ := exists_loaded hv hpc hi
  obtain ⟨s₂, halone₂, hpc₂, ha₂⟩ := exists_stored hpc₁ hint h0 hi
  rw [wrap64_of_long (by omega) ha] at ha₂
  exact ⟨s₂, _, halone.trans halone₂, hpc₂, ha₂⟩

/-- Each of the threads stands before a test, and has so many rounds to go. -/
def Waiting (O : Finset (Fin c.threadNum)) (left : Fin c.threadNum → Nat) (s : State c) : Prop :=
  ∀ p ∈ O, left p ≤ c.incrMax ∧ ∃ tmp, s.pc p = .test (c.incrMax - left p) tmp

/-- **The threads of `O` do `k` rounds between them**, none of which gets lost. -/
theorem exists_rounds {O : Finset (Fin c.threadNum)} {left : Fin c.threadNum → Nat} {k : Nat}
    (hv : c.version.Reloads) (hint : (c.incrMax : Int) ≤ INT_MAX) (hwaiting : Waiting O left s)
    (hk : k ≤ ∑ p ∈ O, left p) (ha0 : 0 ≤ s.mem.a) (ha : s.mem.a + k ≤ LONG_MAX) :
    ∃ s' left', Goes s s' ∧ (∀ p ∉ O, s'.pc p = s.pc p) ∧ Waiting O left' s' ∧
      ∑ p ∈ O, left' p + k = ∑ p ∈ O, left p ∧ s'.mem.a = s.mem.a + k := by
  induction k with
  | zero => exact ⟨s, left, .start, fun _ _ => rfl, hwaiting, rfl, by simp⟩
  | succ k ih =>
    push_cast at ha
    obtain ⟨s₁, left₁, hgoes, hout, hwait, hsum, ha₁⟩ := ih (by omega) (by omega)
    -- somebody has a round to go
    have hpos : ∃ p ∈ O, left₁ p ≠ 0 := by
      by_contra hnone
      push Not at hnone
      rw [Finset.sum_eq_zero hnone] at hsum
      omega
    obtain ⟨p, hp, hleft⟩ := hpos
    obtain ⟨hle, tmp, hpc⟩ := hwait p hp
    obtain ⟨s₂, tmp₂, halone, hpc₂, ha₂⟩ := exists_round hv hint hpc (by omega) (by omega)
      (by omega) (by omega)
    refine ⟨s₂, Function.update left₁ p (left₁ p - 1), hgoes.trans halone.goes, fun q hq => ?_,
      fun q hq => ?_, ?_, ?_⟩
    · rw [halone.others q fun hqp => hq (hqp ▸ hp), hout q hq]
    · by_cases hqp : q = p
      · subst hqp
        rw [Function.update_self, hpc₂]
        refine ⟨by omega, tmp₂, ?_⟩
        congr 1
        omega
      · rw [Function.update_of_ne hqp, halone.others q hqp]
        exact hwait q hq
    · rw [← Finset.add_sum_erase O _ hp] at hsum ⊢
      rw [Function.update_self, Finset.sum_congr rfl fun q hq =>
        Function.update_of_ne (Finset.ne_of_mem_erase hq) _ _]
      omega
    · rw [ha₂, ha₁]
      push_cast
      omega

theorem Waiting.alone {O : Finset (Fin c.threadNum)} {left : Fin c.threadNum → Nat}
    {p : Fin c.threadNum} (h : Waiting O left s) (halone : Alone p s s') (hp : p ∉ O) :
    Waiting O left s' := by
  intro q hq
  rw [halone.others q fun hqp => hp (hqp ▸ hq)]
  exact h q hq

/-- `slow` has done one round, in which `k` rounds of the others got lost. Then the others have gone
    on, but for one round of `last`. -/
structure Started (k : Nat) (slow last : Fin c.threadNum) (s : State c) : Prop where
  ne : last ≠ slow
  atSlow : ∃ tmp, s.pc slow = .test 1 tmp
  atLast : ∃ tmp, s.pc last = .test (c.incrMax - 1) tmp
  atOthers : ∀ p, p ≠ slow → p ≠ last → ∃ tmp, s.pc p = .test c.incrMax tmp
  a : s.mem.a + k = (c.threadNum - 1) * c.incrMax

/-- What is left to all threads but one at the start. -/
theorem sum_erase (slow : Fin c.threadNum) :
    (∑ _p ∈ Finset.univ.erase slow, c.incrMax) + c.incrMax = c.threadNum * c.incrMax := by
  rw [Finset.sum_const, Finset.card_erase_of_mem (Finset.mem_univ _), Finset.card_univ,
    Fintype.card_fin, smul_eq_mul, ← Nat.succ_mul, Nat.succ_eq_add_one, Nat.sub_add_cancel slow.pos]

/-- The slow thread stores what it has made of the zero, after `k` rounds of the others. -/
theorem exists_lost {k : Nat} (hv : c.version.Reloads) (hpos : 2 ≤ c.incrMax)
    (hint : (c.incrMax : Int) ≤ INT_MAX) (hlong : (c.threadNum * c.incrMax : Int) ≤ LONG_MAX)
    (slow : Fin c.threadNum) (hk : k + c.incrMax ≤ c.threadNum * c.incrMax) :
    ∃ s left, Goes (init c) s ∧ (∃ tmp, s.pc slow = .test 1 tmp) ∧
      Waiting (Finset.univ.erase slow) left s ∧
      ∑ p ∈ Finset.univ.erase slow, left p + k + c.incrMax = c.threadNum * c.incrMax ∧
      s.mem.a = 1 := by
  have hentry : ∀ p, (init c).pc p = .test 0 0 := by
    intro p
    show c.version.entry = _
    cases hw : c.version <;> first | rfl | exact absurd hw hv
  have hwaiting : Waiting (Finset.univ.erase slow) (fun _ => c.incrMax) (init c) := by
    intro p _
    refine ⟨le_refl _, 0, ?_⟩
    rw [hentry p, sub_self]
  have hsum := sum_erase slow
  have hroom : (k : Int) ≤ LONG_MAX := by
    have hle : ((k + c.incrMax : Nat) : Int) ≤ (c.threadNum * c.incrMax : Nat) :=
      Int.ofNat_le.mpr hk
    push_cast at hle
    omega
  obtain ⟨s₁, halone₁, hpc₁, hm₁⟩ := exists_loaded hv (hentry slow) (by omega)
  have ha : (init c).mem.a = 0 := rfl
  rw [ha] at hpc₁
  obtain ⟨s₂, left, hgoes₂, hout₂, hwait₂, hsum₂, ha₂⟩ := exists_rounds (k := k) hv hint
    (hwaiting.alone halone₁ (Finset.notMem_erase _ _)) (by omega)
    (by rw [hm₁, ha]) (by rw [hm₁, ha]; omega)
  obtain ⟨s₃, halone₃, hpc₃, ha₃⟩ := exists_stored (p := slow)
    ((hout₂ slow (Finset.notMem_erase _ _)).trans hpc₁) hint (le_refl 0) (by omega)
  exact ⟨s₃, left, (halone₁.goes.trans hgoes₂).trans halone₃.goes, ⟨_, hpc₃⟩,
    hwait₂.alone halone₃ (Finset.notMem_erase _ _), by omega, ha₃⟩

theorem exists_started {k : Nat} (hv : c.version.Reloads) (hpos : 2 ≤ c.incrMax)
    (hint : (c.incrMax : Int) ≤ INT_MAX) (hlong : (c.threadNum * c.incrMax : Int) ≤ LONG_MAX)
    (slow : Fin c.threadNum) (hk : k + c.incrMax < c.threadNum * c.incrMax) :
    ∃ s last, Goes (init c) s ∧ Started k slow last s := by
  obtain ⟨s₁, left₁, hgoes₁, ⟨tmp₁, hslow⟩, hwait₁, hsum₁, ha₁⟩ :=
    exists_lost hv hpos hint hlong slow (le_of_lt hk)
  have hall : ((∑ p ∈ Finset.univ.erase slow, left₁ p + k + c.incrMax : Nat) : Int) =
      (c.threadNum * c.incrMax : Nat) := congrArg Int.ofNat hsum₁
  rw [Nat.cast_mul, Nat.cast_add, Nat.cast_add] at hall
  -- the others go on until one round is left
  obtain ⟨s₂, left, hgoes, hout, hwait, hsum, ha⟩ := exists_rounds
    (k := ∑ p ∈ Finset.univ.erase slow, left₁ p - 1) hv hint hwait₁ (by omega) (by omega)
    (by omega)
  have hleft : ∑ p ∈ Finset.univ.erase slow, left p = 1 := by omega
  obtain ⟨last, hlast, hlastpos⟩ : ∃ p ∈ Finset.univ.erase slow, left p ≠ 0 := by
    by_contra hnone
    push Not at hnone
    rw [Finset.sum_eq_zero hnone] at hleft
    omega
  rw [← Finset.add_sum_erase _ _ hlast] at hleft
  have hone : left last = 1 := by omega
  have hrest : ∑ p ∈ (Finset.univ.erase slow).erase last, left p = 0 := by omega
  rw [Finset.sum_eq_zero_iff] at hrest
  refine ⟨s₂, last, hgoes₁.trans hgoes, Finset.ne_of_mem_erase hlast, ⟨tmp₁, ?_⟩, ?_,
    fun p hp hpl => ?_, ?_⟩
  · rw [hout slow (Finset.notMem_erase _ _), hslow]
  · obtain ⟨-, tmp, hpc⟩ := hwait last hlast
    rw [hone] at hpc
    exact ⟨tmp, hpc⟩
  · have hmem : p ∈ Finset.univ.erase slow := Finset.mem_erase.mpr ⟨hp, Finset.mem_univ p⟩
    obtain ⟨-, tmp, hpc⟩ := hwait p hmem
    rw [hrest p (Finset.mem_erase.mpr ⟨hpl, hmem⟩)] at hpc
    exact ⟨tmp, hpc.trans (by simp)⟩
  · have hmul : ((c.threadNum : Int) - 1) * c.incrMax + c.incrMax =
        c.threadNum * c.incrMax := by ring
    omega

/-- In the last round of `last`, `k` rounds of the slow thread get lost. -/
theorem Started.finish {j k : Nat} {slow last : Fin c.threadNum} (h : Started k slow last s)
    (hv : c.version.Reloads) (hpos : 2 ≤ c.incrMax) (hint : (c.incrMax : Int) ≤ INT_MAX)
    (hlong : (c.threadNum * c.incrMax : Int) ≤ LONG_MAX) (hj : j < c.incrMax)
    (ha0 : 0 ≤ s.mem.a) :
    ∃ s', Goes s s' ∧ (∀ p, ∃ tmp, s'.pc p = .test c.incrMax tmp) ∧
      s'.mem.a + (j + k) = c.threadNum * c.incrMax := by
  obtain ⟨hne, ⟨tmp, hslow⟩, ⟨tmp', hlast⟩, hothers, ha⟩ := h
  have hall : ((c.threadNum : Int) - 1) * c.incrMax + c.incrMax = c.threadNum * c.incrMax := by ring
  have hnot : last ∉ ({slow} : Finset (Fin c.threadNum)) := by
    rw [Finset.mem_singleton]
    exact hne
  obtain ⟨s₁, halone₁, hpc₁, hm₁⟩ := exists_loaded hv hlast (by omega)
  have hwaiting : Waiting {slow} (fun _ => c.incrMax - 1) s₁ := by
    intro p hp
    rw [Finset.mem_singleton.mp hp, halone₁.others slow hne.symm, hslow]
    have hone : (1 : Int) = c.incrMax - ((c.incrMax - 1 : Nat) : Int) := by omega
    exact ⟨Nat.sub_le _ _, tmp, by rw [← hone]⟩
  obtain ⟨s₂, left, hgoes₂, hout₂, hwait₂, hsum₂, ha₂⟩ := exists_rounds (k := j) hv hint hwaiting
    (by simp; omega) (by rw [hm₁]; exact ha0) (by rw [hm₁]; omega)
  obtain ⟨s₃, halone₃, hpc₃, ha₃⟩ := exists_stored ((hout₂ last hnot).trans hpc₁) hint (by omega)
    (by omega)
  rw [wrap64_of_long (by omega) (by omega)] at ha₃
  simp only [Finset.sum_singleton] at hsum₂
  obtain ⟨s₄, left₄, hgoes₄, hout₄, hwait₄, hsum₄, ha₄⟩ := exists_rounds (k := left slow) hv hint
    (hwait₂.alone halone₃ hnot) (by simp) (by omega) (by omega)
  simp only [Finset.sum_singleton, Nat.add_eq_right] at hsum₄
  refine ⟨s₄, (halone₁.goes.trans hgoes₂).trans (halone₃.goes.trans hgoes₄),
    fun p => ?_, ?_⟩
  · by_cases hp : p = slow
    · subst hp
      obtain ⟨-, tmp, hpc⟩ := hwait₄ p (Finset.mem_singleton_self p)
      rw [hsum₄] at hpc
      exact ⟨tmp, hpc.trans (by simp)⟩
    · rw [hout₄ p (Finset.notMem_singleton.mpr hp)]
      by_cases hpl : p = last
      · subst hpl
        rw [hpc₃]
        exact ⟨_, by congr 1; omega⟩
      · rw [halone₃.others p hpl, hout₂ p (Finset.notMem_singleton.mpr hp), halone₁.others p hpl]
        exact hothers p hp hpl
  · rw [ha₄, ha₃]
    omega

theorem finalValue_of_reloads {x : Int} (hv : c.version.Reloads) (hthreads : 2 ≤ c.threadNum)
    (hpos : 2 ≤ c.incrMax) (hint : (c.incrMax : Int) ≤ INT_MAX)
    (hlong : (c.threadNum * c.incrMax : Int) ≤ LONG_MAX) (hlow : 2 ≤ x)
    (hhigh : x ≤ c.threadNum * c.incrMax) : FinalValue c x := by
  have htwice : (2 : Int) * c.incrMax ≤ c.threadNum * c.incrMax :=
    Int.mul_le_mul_of_nonneg_right (by omega) (by omega)
  have hcast : ((c.threadNum * c.incrMax : Nat) : Int) = c.threadNum * c.incrMax :=
    Nat.cast_mul _ _
  -- as much as possible of what is to get lost gets lost at the start
  obtain ⟨lost, hlost⟩ := Int.eq_ofNat_of_zero_le (Int.sub_nonneg_of_le hhigh)
  obtain ⟨k, j, hkj, hk, hj⟩ : ∃ k j, k + j = lost ∧
      k + c.incrMax < c.threadNum * c.incrMax ∧ j < c.incrMax := by
    by_cases hfew : lost + c.incrMax < c.threadNum * c.incrMax
    · exact ⟨lost, 0, rfl, hfew, by omega⟩
    · refine ⟨c.threadNum * c.incrMax - c.incrMax - 1,
        lost - (c.threadNum * c.incrMax - c.incrMax - 1), ?_, ?_, ?_⟩ <;> omega
  obtain ⟨s₁, last, hgoes₁, hstarted⟩ := exists_started hv hpos hint hlong
    ⟨0, Nat.zero_lt_of_lt hthreads⟩ hk
  have ha := hstarted.a
  have hmul : ((c.threadNum : Int) - 1) * c.incrMax + c.incrMax = c.threadNum * c.incrMax := by ring
  obtain ⟨s₂, hgoes₂, hall, ha₂⟩ := hstarted.finish hv hpos hint hlong hj (by omega)
  have hx : x = s₂.mem.a := by omega
  rw [hx]
  exact finalValue_of_goes (hgoes₁.trans hgoes₂) hall

/-- **With a load in every round** every value from 2 to the full count is possible, and no other
    one is. -/
theorem finalValue_reloads_iff {x : Int} (hv : c.version.Reloads) (hthreads : 2 ≤ c.threadNum)
    (hpos : 2 ≤ c.incrMax) (hint : (c.incrMax : Int) ≤ INT_MAX)
    (hlong : (c.threadNum * c.incrMax : Int) ≤ LONG_MAX) :
    FinalValue c x ↔ 2 ≤ x ∧ x ≤ c.threadNum * c.incrMax := by
  constructor
  · intro h
    have hbounds := h.bounds (Nat.zero_lt_of_lt hthreads) hpos hint hlong
    cases hw : c.version with
    | totalOverwrite => exact absurd hw hv
    | partialOverwrite | noPrintf =>
      rw [hw] at hbounds
      exact hbounds
  · rintro ⟨hlow, hhigh⟩
    exact finalValue_of_reloads hv hthreads hpos hint hlong hlow hhigh

theorem finalValue_reloads_of_two :
    FinalValue ⟨.partialOverwrite, 2, 100⟩ 2 ∧ ¬ FinalValue ⟨.partialOverwrite, 2, 100⟩ 1 := by
  have hv : Version.partialOverwrite.Reloads := nofun
  constructor
  · rw [finalValue_reloads_iff hv (by decide) (by decide) (by decide) (by decide)]
    decide
  · rw [finalValue_reloads_iff hv (by decide) (by decide) (by decide) (by decide)]
    decide

/-! ## 3. With one load before the loop -/

/-- `r` rounds of a thread that nobody interrupts. -/
theorem exists_counted {p : Fin c.threadNum} {i tmp : Int} {r : Nat}
    (hv : c.version = .totalOverwrite) (hint : (c.incrMax : Int) ≤ INT_MAX)
    (hpc : s.pc p = .test i tmp) (h0 : 0 ≤ i) (hr : i + r ≤ c.incrMax) :
    ∃ s' tmp', Alone p s s' ∧ s'.pc p = .test (i + r) tmp' ∧
      (0 ≤ tmp → tmp + r ≤ LONG_MAX →
        tmp' = tmp + r ∧ (0 < r ∨ s.mem.a = tmp → s'.mem.a = tmp + r)) := by
  induction r with
  | zero =>
    refine ⟨s, tmp, .refl p s, by simpa using hpc, fun _ _ => ⟨by simp, fun h => ?_⟩⟩
    simpa using h
  | succ r ih =>
    push_cast at hr
    obtain ⟨s₁, tmp₁, halone₁, hpc₁, hcount⟩ := ih (by omega)
    obtain ⟨s₂, halone₂, hpc₂, -⟩ := exists_alone s₁ p (.store (i + r) tmp₁) s₁.mem
      (by
        rw [hpc₁, hv]
        have hlt : i + r < c.incrMax := by omega
        simp [Version.threadIncrement, TotalOverwrite.threadIncrement, hlt])
    obtain ⟨s₃, halone₃, hpc₃, ha₃⟩ := exists_stored hpc₂ hint (by omega) (by omega)
    have hplace : i + (r : Int) + 1 = i + (r + 1 : Nat) := by
      push_cast
      ring
    rw [hplace] at hpc₃
    refine ⟨s₃, wrap64 (tmp₁ + 1), (halone₁.trans halone₂).trans halone₃, hpc₃,
      fun htmp hlong => ?_⟩
    · push_cast at hlong
      have htmp₁ := (hcount htmp (by omega)).1
      have hwrap : wrap64 (tmp₁ + 1) = tmp + (r + 1 : Nat) := by
        rw [wrap64_of_long (by omega) (by omega), htmp₁]
        push_cast
        ring
      exact ⟨hwrap, fun _ => ha₃.trans hwrap⟩

theorem exists_first_load {p : Fin c.threadNum} {i tmp : Int} (hv : c.version = .totalOverwrite)
    (hpc : s.pc p = .load i tmp) :
    ∃ s', Alone p s s' ∧ s'.pc p = .test i s.mem.a ∧ s'.mem = s.mem := by
  apply exists_alone
  rw [hpc, hv]
  rfl

/-- Before its load, or anywhere in its loop. -/
def Underway (n : Int) (pc : Place) : Prop :=
  pc = .load 0 0 ∨ ∃ i tmp, pc = .test i tmp ∧ 0 ≤ i ∧ i ≤ n

theorem exists_to_end {p : Fin c.threadNum} (hv : c.version = .totalOverwrite)
    (hint : (c.incrMax : Int) ≤ INT_MAX) (hpc : Underway c.incrMax (s.pc p)) :
    ∃ s', Alone p s s' ∧ ∃ tmp, s'.pc p = .test c.incrMax tmp := by
  obtain ⟨s₁, i, tmp, halone, hpc₁, h0, hi⟩ : ∃ s₁ i tmp, Alone p s s₁ ∧
      s₁.pc p = .test i tmp ∧ 0 ≤ i ∧ i ≤ c.incrMax := by
    rcases hpc with hload | ⟨i, tmp, htest, h0, hi⟩
    · obtain ⟨s₁, halone, hpc₁, -⟩ := exists_first_load hv hload
      exact ⟨s₁, 0, _, halone, hpc₁, le_refl 0, by omega⟩
    · exact ⟨s, i, tmp, .refl p s, htest, h0, hi⟩
  have hleft : i + ((c.incrMax : Int) - i).toNat = c.incrMax := by omega
  obtain ⟨s₂, tmp₂, halone₂, hpc₂, -⟩ := exists_counted (r := ((c.incrMax : Int) - i).toNat) hv hint
    hpc₁ h0 (le_of_eq hleft)
  rw [hleft] at hpc₂
  exact ⟨s₂, halone.trans halone₂, tmp₂, hpc₂⟩

/-- **The threads of `O` count to `k`**, one after another. -/
theorem exists_counted_up {O : Finset (Fin c.threadNum)} {k : Nat}
    (hv : c.version = .totalOverwrite) (hint : (c.incrMax : Int) ≤ INT_MAX)
    (hk : k ≤ O.card * c.incrMax) (hlong : (k : Int) ≤ LONG_MAX) :
    ∃ s, Goes (init c) s ∧ (∀ p ∉ O, s.pc p = .load 0 0) ∧ (∀ p ∈ O, Underway c.incrMax (s.pc p)) ∧
      s.mem.a = k := by
  have hentry : ∀ p, (init c).pc p = .load 0 0 := by
    intro p
    show c.version.entry = _
    rw [hv]
    rfl
  induction O using Finset.induction generalizing k with
  | empty =>
    rw [Finset.card_empty, Nat.zero_mul, Nat.le_zero] at hk
    subst hk
    exact ⟨init c, .start, fun p _ => hentry p, fun p _ => .inl (hentry p), rfl⟩
  | insert p O hp ih =>
    rw [Finset.card_insert_of_notMem hp, Nat.succ_mul] at hk
    by_cases hfew : k ≤ O.card * c.incrMax
    · -- `p` is not needed
      obtain ⟨s, hgoes, hout, hin, ha⟩ := ih hfew hlong
      refine ⟨s, hgoes, fun q hq => hout q fun h => hq (Finset.mem_insert_of_mem h),
        fun q hq => ?_, ha⟩
      rcases Finset.mem_insert.mp hq with rfl | hq
      · exact .inl (hout q hp)
      · exact hin q hq
    · obtain ⟨s, hgoes, hout, hin, ha⟩ := ih (le_refl _) (by omega)
      obtain ⟨s₁, halone₁, hpc₁, hm₁⟩ := exists_first_load hv (hout p hp)
      obtain ⟨s₂, tmp, halone₂, hpc₂, hcount⟩ := exists_counted (r := k - O.card * c.incrMax) hv
        hint hpc₁ (le_refl 0) (by omega)
      rw [ha] at hcount
      have ha₂ := (hcount (by omega) (by omega)).2 (.inr (by rw [hm₁, ha]))
      have halone := halone₁.trans halone₂
      refine ⟨s₂, hgoes.trans halone.goes, fun q hq => ?_, fun q hq => ?_, by omega⟩
      · rw [Finset.mem_insert, not_or] at hq
        rw [halone.others q hq.1]
        exact hout q hq.2
      · by_cases hqp : q = p
        · subst hqp
          exact .inr ⟨_, tmp, hpc₂, by omega, by omega⟩
        · rw [halone.others q hqp]
          exact hin q ((Finset.mem_insert.mp hq).resolve_left hqp)

theorem finalValue_of_totalOverwrite {x : Int} (hv : c.version = .totalOverwrite)
    (hthreads : 0 < c.threadNum) (hpos : 0 < c.incrMax) (hint : (c.incrMax : Int) ≤ INT_MAX)
    (hlong : (c.threadNum * c.incrMax : Int) ≤ LONG_MAX) (hlow : c.incrMax ≤ x)
    (hhigh : x ≤ c.threadNum * c.incrMax) : FinalValue c x := by
  obtain ⟨k, hk⟩ := Int.eq_ofNat_of_zero_le (Int.sub_nonneg_of_le hlow)
  have hsum := sum_erase (c := c) ⟨0, hthreads⟩
  rw [Finset.sum_const, smul_eq_mul] at hsum
  have hcast : ((c.threadNum * c.incrMax : Nat) : Int) = c.threadNum * c.incrMax :=
    Nat.cast_mul _ _
  -- the last one to store loads when the others have counted to `k`
  obtain ⟨s₁, hgoes₁, hout₁, hin₁, ha₁⟩ := exists_counted_up (k := k)
    (O := Finset.univ.erase ⟨0, hthreads⟩) hv hint (by omega) (by omega)
  obtain ⟨s₂, halone₂, hpc₂, hm₂⟩ := exists_first_load hv
    (hout₁ ⟨0, hthreads⟩ (Finset.notMem_erase _ _))
  obtain ⟨s₃, hgoes₃, hin₃, hout₃, -⟩ := exists_each (s := s₂) (Q := fun _ => Underway c.incrMax)
    (R := fun _ pc => ∃ tmp, pc = .test c.incrMax tmp) (K := fun _ => True)
    (Finset.univ.erase ⟨0, hthreads⟩)
    (fun s p _ _ hpc => by
      obtain ⟨s', halone, hend⟩ := exists_to_end hv hint hpc
      exact ⟨s', halone, hend, trivial⟩)
    trivial (fun p hp => by
      rw [halone₂.others p (Finset.ne_of_mem_erase hp)]
      exact hin₁ p hp)
  have hpc₃ := (hout₃ _ (Finset.notMem_erase _ _)).trans hpc₂
  obtain ⟨s₄, tmp, halone₄, hpc₄, hcount⟩ := exists_counted (r := c.incrMax) hv hint hpc₃
    (le_refl 0) (by omega)
  rw [ha₁] at hcount
  have ha₄ := (hcount (by omega) (by omega)).2 (.inl hpos)
  have hx : x = s₄.mem.a := by omega
  rw [hx]
  refine finalValue_of_goes ((hgoes₁.trans halone₂.goes).trans (hgoes₃.trans halone₄.goes))
    fun p => ?_
  by_cases hp : p = ⟨0, hthreads⟩
  · subst hp
    exact ⟨tmp, hpc₄.trans (by simp)⟩
  · rw [halone₄.others p hp]
    exact hin₃ p (Finset.mem_erase.mpr ⟨hp, Finset.mem_univ p⟩)

/-- **With one load before the loop** every value from `INCR_MAX` to the full count is possible, and
    no other one is. -/
theorem finalValue_totalOverwrite_iff {x : Int} (hv : c.version = .totalOverwrite)
    (hthreads : 0 < c.threadNum) (hpos : 2 ≤ c.incrMax) (hint : (c.incrMax : Int) ≤ INT_MAX)
    (hlong : (c.threadNum * c.incrMax : Int) ≤ LONG_MAX) :
    FinalValue c x ↔ c.incrMax ≤ x ∧ x ≤ c.threadNum * c.incrMax := by
  constructor
  · intro h
    have hbounds := h.bounds hthreads hpos hint hlong
    rw [hv] at hbounds
    exact hbounds
  · rintro ⟨hlow, hhigh⟩
    exact finalValue_of_totalOverwrite hv hthreads (Nat.zero_lt_of_lt hpos) hint hlong hlow hhigh

theorem finalValue_totalOverwrite_of_two :
    FinalValue ⟨.totalOverwrite, 2, 100⟩ 100 ∧ ¬ FinalValue ⟨.totalOverwrite, 2, 100⟩ 99 := by
  constructor
  · rw [finalValue_totalOverwrite_iff rfl (by decide) (by decide) (by decide) (by decide)]
    decide
  · rw [finalValue_totalOverwrite_iff rfl (by decide) (by decide) (by decide) (by decide)]
    decide

end RacingCounter
end Labs
