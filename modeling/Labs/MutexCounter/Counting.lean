import Labs.MutexCounter.Program

/-!
# No increment is lost

What a thread has put into the shared counter so far can be read off its place (`added`): in the
loops that increment the counter it is `i`, and with local accumulation it is nothing before the
store and all of `tmp` after it. The counter is the sum of that over the threads (`Inv.balanced`),
since only a thread that has the mutex stores, and what it stores rests on what it has loaded
under it.

A thread goes round its loop `INCR_MAX` times only if `i`, an `int`, gets that far. With a greater
count the test of the loop succeeds forever, and no thread returns.

## Three versions, one invariant

The versions differ in where the mutex is taken. With `coarseGrained` it is held around the loop,
with `fineGrained` around each increment, with `localAccum` around the one store at the end. What
they have in common is said by `added` and `Knows`: at each place it is determined what the thread
has put into the counter so far, and what its registers have to do with that. From then on the three
are one program, and neither the invariant nor the bound on the steps mentions a version.

That the counter is the sum of `added` is not enough to keep itself. A thread that stores `a + 1`
must know that `a` is still what it has loaded; it does, because others change the counter under the
mutex only (`threadIncrement_outside`), and what a thread without the mutex knows is not about the
counter (`knows_outside`).

## Overflow

The counter is a `long` and `i` an `int`. Room in the `long` is proved from the bound on the
product; room in the `int` is the condition of the result. Where it fails the loops do not end
(`never_returns`), which makes the condition necessary, unless there are no threads.
-/

namespace Labs
namespace MutexCounter

open Lib

variable {c : Config} {v : Version} {n : Int} {m m' : Shared} {op : SemOp Unit} {pc pc' : Place}

/-! ## 1. The mutex -/

def Version.held : Version → Place → Set Unit
  | .coarseGrained, .test _ _ => {()}
  | _, .load _ _ => {()}
  | _, .store _ _ _ => {()}
  | _, .printf _ _ => {()}
  | _, .unlock _ _ => {()}
  | _, _ => ∅

def held (c : Config) : Fin c.threadNum → Place → Set Unit := fun _ pc => c.version.held pc

/-- `pthread_mutex_lock` and `pthread_mutex_unlock` do not fail on such a mutex. -/
def Always (c : Config) (_ : Fin c.threadNum) (_ : Place) (_ : Unit) : Prop := True

theorem eq_empty_of_notMem {A : Set Unit} (h : () ∉ A) : A = ∅ :=
  Set.eq_empty_of_forall_notMem fun _ => h

theorem threadIncrement_keeps (h : v.threadIncrement n pc m = some (pc', m', op)) :
    op.Keeps (v.held pc) (v.held pc') := by
  cases pc with
  | test i tmp =>
    cases v <;> cases h <;> split <;> exact SemOp.keeps_skip _
  | lock i tmp =>
    cases v <;> cases h <;> exact SemOp.keeps_wait ()
  | unlock i tmp =>
    cases v <;> cases h <;> exact SemOp.keeps_post ()
  | _ => cases v <;> cases h <;> exact SemOp.keeps_skip _

theorem program_keeps (c : Config) : KeepsWhen (program c) (held c) (Always c) :=
  fun _ _ _ _ _ _ _ _ h => threadIncrement_keeps h

theorem program_oneAtATime (c : Config) : OneAtATime (program c) (held c) := by
  intro p pc m e pc' m' x h
  change c.version.threadIncrement c.incrMax pc m = some (pc', m', .wait x) at h
  show c.version.held pc = ∅
  cases hv : c.version <;> rw [hv] at h <;> cases pc <;> first | rfl | cases h

/-! ## 2. The counter -/

/-- What a thread has added to the shared counter. -/
def Version.added : Version → Int → Place → Int
  | _, n, .returned => n
  | .fineGrained, _, .unlock i _ => i + 1
  | .localAccum, _, .printf _ tmp => tmp
  | .localAccum, _, .unlock _ tmp => tmp
  | .localAccum, _, _ => 0
  | _, _, .test i _ => i
  | _, _, .lock i _ => i
  | _, _, .load i _ => i
  | _, _, .store i _ _ => i
  | _, _, .printf i _ => i
  | _, _, .unlock i _ => i

/-- What a thread knows at its place. -/
def Version.Knows : Version → Int → Place → Shared → Prop
  | .coarseGrained, n, .lock i _, _ => i = 0 ∧ 0 ≤ n
  | .coarseGrained, n, .unlock i _, _ => i = n ∧ 0 ≤ n
  | .fineGrained, n, .lock i _, _ => 0 ≤ i ∧ i < n
  | .fineGrained, n, .unlock i _, _ => 0 ≤ i ∧ i < n
  | .localAccum, n, .test i tmp, _ => 0 ≤ i ∧ i ≤ n ∧ tmp = i
  | .localAccum, n, .lock _ tmp, _ => tmp = n ∧ 0 ≤ n
  | .localAccum, n, .load _ tmp, _ => tmp = n ∧ 0 ≤ n
  | .localAccum, n, .store _ tmp a, m => (tmp = n ∧ 0 ≤ n) ∧ a = m.a
  | .localAccum, n, .printf _ tmp, _ => tmp = n ∧ 0 ≤ n
  | .localAccum, n, .unlock _ tmp, _ => tmp = n ∧ 0 ≤ n
  | _, n, .test i _, _ => 0 ≤ i ∧ i ≤ n
  | _, n, .load i _, _ => 0 ≤ i ∧ i < n
  | _, n, .store i _ a, m => (0 ≤ i ∧ i < n) ∧ a = m.a
  | _, _, .printf _ _, _ => False
  | _, n, .returned, _ => 0 ≤ n

theorem added_bounds (hk : v.Knows n pc m) : 0 ≤ v.added n pc ∧ v.added n pc ≤ n := by
  cases v <;> cases pc <;> simp only [Version.Knows, Version.added] at hk ⊢ <;> omega

/-- What a thread without the mutex knows does not depend on the counter. -/
theorem knows_outside (hout : v.held pc = ∅) (hk : v.Knows n pc m) : v.Knows n pc m' := by
  cases pc with
  | store i tmp a => cases v <;> simp [Version.held] at hout
  | _ => cases v <;> exact hk

theorem knows_congr (ha : m'.a = m.a) (hk : v.Knows n pc m) : v.Knows n pc m' := by
  cases pc with
  | store i tmp a =>
    have heq : a = m'.a → v.Knows n (.store i tmp a) m' := by
      intro h
      cases v <;> exact ⟨hk.1, h⟩
    refine heq ?_
    rw [ha]
    cases v <;> exact hk.2
  | _ => cases v <;> exact hk

/-- The counter changes under the mutex only. -/
theorem threadIncrement_outside (hout : v.held pc = ∅)
    (h : v.threadIncrement n pc m = some (pc', m', op)) : m'.a = m.a := by
  cases pc with
  | store i tmp a => cases v <;> simp [Version.held] at hout
  | _ => cases v <;> cases h <;> rfl

theorem wrap32_next {i : Int} (hn : n ≤ INT_MAX) (h0 : 0 ≤ i) (hi : i < n) :
    wrap32 (i + 1) = i + 1 := by
  refine wrap32_of_inRange ⟨?_, ?_⟩
  · exact Int.le_trans (by decide) (Int.add_le_add_right h0 1)
  · exact Int.le_trans hi hn

/-- What a thread adds, there is room for. -/
theorem wrap64_added {x k : Int} (h0 : 0 ≤ m.a) (hroom : m.a + (n - x) ≤ LONG_MAX) (hk0 : 0 ≤ k)
    (hk : x + k ≤ n) : wrap64 (m.a + k) = m.a + k := by
  have hmax : m.a + k ≤ LONG_MAX := by omega
  exact wrap64_of_long (by omega) hmax

section Steps

variable (hn : n ≤ INT_MAX) (h0 : 0 ≤ m.a)

include hn h0

theorem coarseGrained_knows (hroom : m.a + (n - Version.added .coarseGrained n pc) ≤ LONG_MAX)
    (hk : Version.Knows .coarseGrained n pc m)
    (h : CoarseGrained.threadIncrement n pc m = some (pc', m', op)) :
    Version.Knows .coarseGrained n pc' m' ∧
      m'.a - m.a = Version.added .coarseGrained n pc' - Version.added .coarseGrained n pc := by
  cases pc with
  | lock i tmp =>
    cases h
    obtain ⟨rfl, h⟩ := hk
    exact ⟨⟨le_refl 0, h⟩, by simp [Version.added]⟩
  | test i tmp =>
    cases h
    obtain ⟨hi, hle⟩ := hk
    split
    · rename_i hlt
      exact ⟨⟨hi, hlt⟩, by simp [Version.added]⟩
    · rename_i hge
      have heq : i = n := by omega
      exact ⟨⟨heq, heq ▸ hi⟩, by simp [Version.added]⟩
  | load i tmp =>
    cases h
    exact ⟨⟨hk, rfl⟩, by simp [Version.added]⟩
  | store i tmp a =>
    cases h
    obtain ⟨⟨hi, hlt⟩, rfl⟩ := hk
    rw [wrap32_next hn hi hlt, wrap64_added h0 hroom (by decide) hlt]
    exact ⟨⟨by omega, hlt⟩, by simp [Version.added]⟩
  | printf i tmp => cases h
  | unlock i tmp =>
    cases h
    exact ⟨hk.2, by simp [Version.added, hk.1]⟩
  | returned => cases h

theorem fineGrained_knows (hroom : m.a + (n - Version.added .fineGrained n pc) ≤ LONG_MAX)
    (hk : Version.Knows .fineGrained n pc m)
    (h : FineGrained.threadIncrement n pc m = some (pc', m', op)) :
    Version.Knows .fineGrained n pc' m' ∧
      m'.a - m.a = Version.added .fineGrained n pc' - Version.added .fineGrained n pc := by
  cases pc with
  | test i tmp =>
    cases h
    obtain ⟨hi, hle⟩ := hk
    split
    · rename_i hlt
      exact ⟨⟨hi, hlt⟩, by simp [Version.added]⟩
    · rename_i hge
      have heq : i = n := by omega
      exact ⟨heq ▸ hi, by simp [Version.added, heq]⟩
  | lock i tmp =>
    cases h
    exact ⟨hk, by simp [Version.added]⟩
  | load i tmp =>
    cases h
    exact ⟨⟨hk, rfl⟩, by simp [Version.added]⟩
  | store i tmp a =>
    cases h
    obtain ⟨⟨hi, hlt⟩, rfl⟩ := hk
    rw [wrap64_added h0 hroom (by decide) hlt]
    exact ⟨⟨hi, hlt⟩, by simp [Version.added]⟩
  | printf i tmp => cases h
  | unlock i tmp =>
    cases h
    obtain ⟨hi, hlt⟩ := hk
    rw [wrap32_next hn hi hlt]
    exact ⟨⟨by omega, hlt⟩, by simp [Version.added]⟩
  | returned => cases h

/-- Here `tmp` is `i`, and less than a `long` can hold. -/
theorem localAccum_knows (hroom : m.a + (n - Version.added .localAccum n pc) ≤ LONG_MAX)
    (hk : Version.Knows .localAccum n pc m)
    (h : LocalAccum.threadIncrement n pc m = some (pc', m', op)) :
    Version.Knows .localAccum n pc' m' ∧
      m'.a - m.a = Version.added .localAccum n pc' - Version.added .localAccum n pc := by
  cases pc with
  | test i tmp =>
    cases h
    obtain ⟨hi, hle, rfl⟩ := hk
    split
    · rename_i hlt
      have hlong : tmp + 1 ≤ LONG_MAX := Int.le_trans hlt (Int.le_trans hn (by decide))
      rw [wrap32_next hn hi hlt, wrap64_of_long (by omega) hlong]
      exact ⟨⟨by omega, hlt, rfl⟩, by simp [Version.added]⟩
    · exact ⟨⟨by omega, by omega⟩, by simp [Version.added]⟩
  | lock i tmp =>
    cases h
    exact ⟨hk, by simp [Version.added]⟩
  | load i tmp =>
    cases h
    exact ⟨⟨hk, rfl⟩, by simp [Version.added]⟩
  | store i tmp a =>
    cases h
    obtain ⟨⟨rfl, hpos⟩, rfl⟩ := hk
    rw [wrap64_added h0 hroom hpos (Int.zero_add tmp).le]
    exact ⟨⟨rfl, hpos⟩, by simp [Version.added]⟩
  | printf i tmp =>
    cases h
    exact ⟨hk, by simp [Version.added]⟩
  | unlock i tmp =>
    cases h
    exact ⟨hk.2, by simp [Version.added, hk.1]⟩
  | returned => cases h

/-- **A step of a thread**, when the counter has room for what the thread still adds. -/
theorem threadIncrement_knows (hroom : m.a + (n - v.added n pc) ≤ LONG_MAX) (hk : v.Knows n pc m)
    (h : v.threadIncrement n pc m = some (pc', m', op)) :
    v.Knows n pc' m' ∧ m'.a - m.a = v.added n pc' - v.added n pc := by
  cases v with
  | coarseGrained => exact coarseGrained_knows hn h0 hroom hk h
  | fineGrained => exact fineGrained_knows hn h0 hroom hk h
  | localAccum => exact localAccum_knows hn h0 hroom hk h

end Steps

/-! ## 3. Every run -/

structure Inv (s : State c) : Prop where
  guarded : Guarded (held c) (fun _ _ => True) (fun _ => c.version.Knows c.incrMax) s
  balanced : Balanced Shared.a (fun _ => c.version.added c.incrMax) 0 s

theorem inv_init (c : Config) : Inv (init c) := by
  have hheld : c.version.held c.version.entry = ∅ := by
    cases c.version <;> rfl
  have hadded : c.version.added c.incrMax c.version.entry = 0 := by
    cases c.version <;> rfl
  refine ⟨⟨.initial (fun _ => hheld) fun _ => rfl, fun _ _ => trivial, fun p => ?_⟩, ?_⟩
  · show c.version.Knows c.incrMax c.version.entry _
    cases c.version <;> simp [Version.entry, Version.Knows]
  · show (0 : Int) = 0 + ∑ _p, c.version.added c.incrMax c.version.entry
    simp [hadded]

variable {s s' : State c}

/-- The sum of what the threads have added is no less than what one of them has. -/
theorem Inv.nonneg (h : Inv s) : 0 ≤ s.mem.a := by
  have hsum : s.mem.a = 0 + ∑ p, c.version.added c.incrMax (s.pc p) := h.balanced
  rw [hsum, Int.zero_add]
  exact Finset.sum_nonneg fun p _ => (added_bounds (h.guarded.knows p)).1

theorem Inv.room (h : Inv s) (hlong : (c.threadNum * c.incrMax : Int) ≤ LONG_MAX)
    (p : Fin c.threadNum) :
    s.mem.a + (c.incrMax - c.version.added c.incrMax (s.pc p)) ≤ LONG_MAX := by
  have hroom := h.balanced.room (fun q => (added_bounds (h.guarded.knows q)).2) p
  rw [Fintype.card_fin] at hroom
  exact Int.le_trans hroom hlong

variable (hint : (c.incrMax : Int) ≤ INT_MAX)
  (hlong : (c.threadNum * c.incrMax : Int) ≤ LONG_MAX)

include hint hlong in
theorem Inv.step {a : Fin c.threadNum × Unit} (h : Inv s) (hstep : step c s a = some s') :
    Inv s' := by
  obtain ⟨p, e⟩ := a
  have hown : ∀ pc m op, program c p (s.pc p) s.mem e = some (pc, m, op) →
      c.version.Knows c.incrMax pc m ∧
        m.a - s.mem.a = c.version.added c.incrMax pc - c.version.added c.incrMax (s.pc p) :=
    fun pc m op hnext =>
      threadIncrement_knows hint h.nonneg (h.room hlong p) (h.guarded.knows p) hnext
  refine ⟨h.guarded.step (program_keeps c) trivial ?_ ?_ ?_ hstep, h.balanced.step ?_ hstep⟩
  · intro pc m op hnext _
    exact ⟨(hown pc m op hnext).1, fun _ _ => trivial⟩
  · intro _ _ _ _ _ _ _
    trivial
  · intro q pc m op hne hnext hapart hk
    by_cases hp : () ∈ held c p (s.pc p)
    · -- then `q` has not got the mutex, and what it knows is about its own locals
      exact knows_outside (eq_empty_of_notMem (hapart () hp)) hk
    · exact knows_congr (threadIncrement_outside (eq_empty_of_notMem hp) hnext) hk
  · intro pc m op hnext
    exact (hown pc m op hnext).2

/-! ## 4. Threads that return -/

/-- An upper bound of the steps that a thread still takes. -/
def Version.left : Version → Int → Place → Nat
  | .coarseGrained, n, .lock i _ => 3 * (n - i).toNat + 3
  | .coarseGrained, n, .test i _ => 3 * (n - i).toNat + 2
  | .coarseGrained, n, .load i _ => 3 * (n - i).toNat + 1
  | .coarseGrained, n, .store i _ _ => 3 * (n - i).toNat
  | .coarseGrained, _, .unlock _ _ => 1
  | .fineGrained, n, .test i _ => 5 * (n - i).toNat + 1
  | .fineGrained, n, .lock i _ => 5 * (n - i).toNat
  | .fineGrained, n, .load i _ => 5 * (n - i).toNat - 1
  | .fineGrained, n, .store i _ _ => 5 * (n - i).toNat - 2
  | .fineGrained, n, .unlock i _ => 5 * (n - i).toNat - 3
  | .localAccum, n, .test i _ => (n - i).toNat + 6
  | .localAccum, _, .lock _ _ => 5
  | .localAccum, _, .load _ _ => 4
  | .localAccum, _, .store _ _ _ => 3
  | .localAccum, _, .printf _ _ => 2
  | .localAccum, _, .unlock _ _ => 1
  | _, _, _ => 0

theorem threadIncrement_left (hn : n ≤ INT_MAX) (hk : v.Knows n pc m)
    (h : v.threadIncrement n pc m = some (pc', m', op)) : v.left n pc' < v.left n pc := by
  cases v with
  | coarseGrained =>
    cases pc with
    | test i tmp =>
      cases h
      split <;> simp only [Version.left] <;> omega
    | store i tmp a =>
      cases h
      obtain ⟨⟨hi, hlt⟩, -⟩ := hk
      rw [wrap32_next hn hi hlt]
      simp only [Version.left]
      omega
    | _ => cases h <;> simp [Version.left]
  | fineGrained =>
    cases pc with
    | test i tmp =>
      cases h
      split <;> simp [Version.left]
    | unlock i tmp =>
      cases h
      obtain ⟨hi, hlt⟩ := hk
      rw [wrap32_next hn hi hlt]
      simp only [Version.left]
      omega
    | printf i tmp => cases h
    | returned => cases h
    | lock i tmp | load i tmp =>
      cases h
      have hlt := hk.2
      simp only [Version.left]
      omega
    | store i tmp a =>
      cases h
      have hlt := hk.1.2
      simp only [Version.left]
      omega
  | localAccum =>
    cases pc with
    | test i tmp =>
      cases h
      obtain ⟨hi, hle, -⟩ := hk
      split
      · rename_i hlt
        rw [wrap32_next hn hi hlt]
        simp only [Version.left]
        omega
      · simp only [Version.left]
        omega
    | _ => cases h <;> simp [Version.left]

/-- Where a thread is that has not returned, it has something to do. -/
theorem exists_step_of_ne (hk : v.Knows n pc m) (hne : pc ≠ .returned) :
    ∃ r, v.threadIncrement n pc m = some r := by
  cases pc with
  | returned => exact absurd rfl hne
  | printf i tmp =>
    cases v with
    | localAccum => exact ⟨_, rfl⟩
    | coarseGrained => exact absurd hk id
    | fineGrained => exact absurd hk id
  | _ => cases v <;> exact ⟨_, rfl⟩

def left (s : State c) : Nat := ∑ p, c.version.left c.incrMax (s.pc p)

include hint in
theorem left_lt {a : Fin c.threadNum × Unit} (h : Inv s) (hstep : step c s a = some s') :
    left s' < left s := by
  obtain ⟨p, e⟩ := a
  obtain ⟨pc, m, op, sem, hnext, -, rfl⟩ := Sys.step_cases hstep
  refine sum_lt_of_moved p (fun q hq => ?_) ?_
  · show c.version.left c.incrMax (Function.update s.pc p pc q) = _
    rw [Function.update_of_ne hq]
  · show c.version.left c.incrMax (Function.update s.pc p pc p) < _
    rw [Function.update_self]
    exact threadIncrement_left hint (h.guarded.knows p) hnext

theorem Inv.progress (h : Inv s) {p : Fin c.threadNum} (hp : s.pc p ≠ .returned) :
    ∃ a, (MutexCounter.step c s a).isSome := by
  have hmoves : ∀ q, s.pc q ≠ .returned →
      ∃ e r, Always c q (s.pc q) e ∧ program c q (s.pc q) s.mem e = some r := by
    intro q hq
    obtain ⟨r, hr⟩ := exists_step_of_ne (h.guarded.knows q) hq
    exact ⟨(), r, trivial, hr⟩
  have hbusy : ∀ q x, x ∈ held c q (s.pc q) → s.pc q ≠ .returned := by
    intro q x hx hq
    rw [hq] at hx
    cases hv : c.version <;> simp [held, hv, Version.held] at hx
  obtain ⟨q, e, s', -, -, hs'⟩ := h.guarded.locked.progress (program_oneAtATime c).ordered
    (fun _ => le_refl 0) hmoves hbusy hp
  exact ⟨(q, e), Option.isSome_iff_exists.mpr ⟨s', hs'⟩⟩

/-! ## 5. Counts that no `int` reaches -/

/-- Where a thread is as long as the test of its loop succeeds. -/
def Version.Loops : Version → Place → Prop
  | .coarseGrained, .unlock _ _ => False
  | .localAccum, .lock _ _ => False
  | .localAccum, .load _ _ => False
  | .localAccum, .store _ _ _ => False
  | .localAccum, .printf _ _ => False
  | .localAccum, .unlock _ _ => False
  | _, .test i _ => i ≤ INT_MAX
  | _, .lock i _ => i ≤ INT_MAX
  | _, .returned => False
  | _, _ => True

theorem threadIncrement_loops (hn : INT_MAX < n) (hloop : v.Loops pc)
    (h : v.threadIncrement n pc m = some (pc', m', op)) : v.Loops pc' := by
  cases pc with
  | test i tmp =>
    have hi : i ≤ INT_MAX := by
      cases v <;> exact hloop
    have hlt : i < n := Int.lt_of_le_of_lt hi hn
    cases v with
    | coarseGrained =>
      cases h
      simp only [hlt, if_true]
      exact trivial
    | fineGrained =>
      cases h
      simp only [hlt, if_true]
      exact hi
    | localAccum =>
      cases h
      simp only [hlt, if_true]
      exact (inRange_wrap32 _).2
  | lock i tmp =>
    cases v with
    | coarseGrained =>
      cases h
      exact hloop
    | fineGrained =>
      cases h
      exact trivial
    | localAccum => exact absurd hloop id
  | load i tmp =>
    cases v with
    | localAccum => exact absurd hloop id
    | _ =>
      cases h
      exact trivial
  | store i tmp a =>
    cases v with
    | coarseGrained =>
      cases h
      exact (inRange_wrap32 _).2
    | fineGrained =>
      cases h
      exact trivial
    | localAccum => exact absurd hloop id
  | unlock i tmp =>
    cases v with
    | fineGrained =>
      cases h
      exact (inRange_wrap32 _).2
    | _ => exact absurd hloop id
  | printf i tmp =>
    cases v with
    | localAccum => exact absurd hloop id
    | _ => cases h
  | returned => cases v <;> cases h

def Looping (s : State c) : Prop := ∀ p, c.version.Loops (s.pc p)

theorem Looping.step (hn : INT_MAX < c.incrMax) {a : Fin c.threadNum × Unit} (h : Looping s)
    (hstep : step c s a = some s') : Looping s' := by
  obtain ⟨p, e⟩ := a
  obtain ⟨pc, m, op, sem, hnext, -, rfl⟩ := Sys.step_cases hstep
  intro q
  by_cases hq : q = p
  · subst hq
    show c.version.Loops (Function.update s.pc q pc q)
    rw [Function.update_self]
    exact threadIncrement_loops hn (h q) hnext
  · show c.version.Loops (Function.update s.pc p pc q)
    rw [Function.update_of_ne hq]
    exact h q

/-- With a count above `INT_MAX` no thread ever returns. -/
theorem never_returns (hn : INT_MAX < c.incrMax)
    (h : Reaches (step c) (fun _ _ => True) (init c) s) (p : Fin c.threadNum) :
    s.pc p ≠ .returned := by
  have hentry : Looping (init c) := by
    intro q
    show c.version.Loops c.version.entry
    cases c.version <;> exact (by decide : (0 : Int) ≤ INT_MAX)
  have hall : Looping s := h.invariant hentry fun _ _ _ ih _ hstep => ih.step hn hstep
  intro hp
  have hloop := hall p
  rw [hp] at hloop
  cases hv : c.version <;> rw [hv] at hloop <;> exact hloop

/-! ## 6. How every run ends -/

/-- No run goes on forever, and where one ends all threads have returned and the counter is
    `total`. -/
def FinishesWith (c : Config) (total : Int) : Prop :=
  (∃ bound, ∀ as s, run (step c) as (init c) = some s → as.length ≤ bound) ∧
    ∀ s, Reaches (step c) (fun _ _ => True) (init c) s → (∀ a, step c s a = none) →
      (∀ p, s.pc p = .returned) ∧ s.mem.a = total

include hint hlong in
theorem finishesWith_product : FinishesWith c (c.threadNum * c.incrMax) := by
  have hinv : ∀ s, Reaches (step c) (fun _ _ => True) (init c) s → Inv s := fun s hs =>
    hs.invariant (inv_init c) fun _ _ _ h _ hstep => h.step hint hlong hstep
  refine ⟨⟨left (init c), fun as s hrun => ?_⟩, fun s hs hstuck => ?_⟩
  · exact length_le_of_measure left (fun s a s' h hstep =>
      ⟨h.step hint hlong hstep, left_lt hint h hstep⟩) (inv_init c) hrun
  · have hreturned : ∀ p, s.pc p = .returned := by
      intro p
      by_contra hp
      obtain ⟨a, ha⟩ := (hinv s hs).progress hp
      rw [hstuck a] at ha
      cases ha
    have hsum : s.mem.a = 0 + ∑ p, c.version.added c.incrMax (s.pc p) := (hinv s hs).balanced
    have hadded : ∀ v : Version, v.added c.incrMax .returned = c.incrMax := by
      intro v
      cases v <;> rfl
    refine ⟨hreturned, ?_⟩
    rw [hsum]
    simp [hreturned, hadded]

theorem finishesWith_no_threads (h0 : c.threadNum = 0) :
    FinishesWith c (c.threadNum * c.incrMax) := by
  have hnobody : Fin c.threadNum → False := fun p => (h0 ▸ p : Fin 0).elim0
  refine ⟨⟨0, fun as s _ => ?_⟩, fun s hs _ => ⟨fun p => (hnobody p).elim, ?_⟩⟩
  · cases as with
    | nil => exact le_refl 0
    | cons a as => exact (hnobody a.1).elim
  · cases hs with
    | start => simp [h0, init]
    | next before ok moves =>
      rename_i a
      exact (hnobody a.1).elim

theorem not_finishesWith {total : Int} (hn : INT_MAX < c.incrMax) (hpos : 0 < c.threadNum) :
    ¬ FinishesWith c total := by
  rintro ⟨⟨bound, hbound⟩, hends⟩
  obtain ⟨s, hs, hstuck⟩ := exists_stuck_of_bounded hbound
  exact never_returns hn hs ⟨0, hpos⟩ ((hends s hs hstuck).1 _)

/-- **All versions finish with the same counter**, for every count that an `int` reaches. -/
theorem finishesWith_product_iff (c : Config)
    (hlong : (c.threadNum * c.incrMax : Int) ≤ LONG_MAX) :
    FinishesWith c (c.threadNum * c.incrMax) ↔
      c.threadNum = 0 ∨ (c.incrMax : Int) ≤ INT_MAX := by
  constructor
  · intro h
    rcases Nat.eq_zero_or_pos c.threadNum with h0 | hpos
    · exact .inl h0
    · exact .inr (Int.not_lt.mp fun hn => not_finishesWith hn hpos h)
  · rintro (h0 | hint)
    · exact finishesWith_no_threads h0
    · exact finishesWith_product hint hlong

/-- Two threads that count to three each, and both of them lock for every increment. -/
theorem finishesWith_product_fine :
    FinishesWith ⟨.fineGrained, 2, 3⟩ 6 :=
  (finishesWith_product_iff ⟨.fineGrained, 2, 3⟩ (by decide)).mpr (.inr (by decide))

/-- One thread, whose count fits in a `long` and not in an `int`. -/
theorem not_finishesWith_product_long :
    (1 * 2147483648 : Int) ≤ LONG_MAX ∧
      ¬ FinishesWith ⟨.coarseGrained, 1, 2147483648⟩ 2147483648 := by
  exact ⟨by decide, not_finishesWith (by decide) Nat.one_pos⟩

end MutexCounter
end Labs
