import Labs.ForkTree.Program
import Mathlib.Algebra.BigOperators.Fin
import Mathlib.Tactic.Ring

/-!
# How often each call is made

The processes of a run form a tree, whatever the order in which they move and whether they wait:
with `k` turns to go, a process forks a child that has `k - 1` turns to go. So each call has a
weight in advance (`due`), which is paid when it is made (`due_step`), and what is counted in a
state and what is due there add up to the same number in all states of all runs (`counted_eq`).

## Weights

Numbers of processes are given out as the processes are forked, so they depend on the order of the
steps, and no formula could say what process 5 will do. What each process still has to do depends on
its loop variable alone. So all counting is done with weights: a `Weight` gives to a call in the
turn `i` what it counts for, `loopDue` adds up what a process and all its descendants will pay, and
`due_step` says that a step takes its own weight from the sum and nothing else. The sum is over the
processes there are; a fork adds a summand and divides what was due between parent and child.

Everything that is counted is an instance. The length of a run has the weight one for all calls, the
number of processes has it for `fork`, and the lines of a kind have it for the call that prints them
(`countP_step`). The versions differ in one call, `word`, which the first one does not make
(`Weight.Fits`).

That runs end is a consequence: there is something due as long as some process has not gone, and
each step pays at least one.
-/

namespace Labs
namespace ForkTree

open Lib

variable {v : Version} {num p q i : Nat} {m m' : Machine} {r : Process} {e : Event}

/-! ## 1. The moves -/

/-- What a step does. -/
inductive Move (v : Version) (num : Nat) (m : Machine) (p : Nat) : Machine → Prop
  | turn (place : (m.process p).place = .loop) (more : (m.process p).i < num) :
      Move v num m p ((m.move p { m.process p with place := .fork }).print
        (.pre (m.process p).i (if v = .waiting then none else some p)))
  | leave (place : (m.process p).place = .loop) (enough : num ≤ (m.process p).i) :
      Move v num m p ((m.move p { m.process p with place := .exited }).print
        (.done p (m.process p).i))
  | fork (place : (m.process p).place = .fork) : Move v num m p (m.fork p (m.process p))
  | parent (q : Nat) (place : (m.process p).place = .parent q) :
      Move v num m p ((m.move p { m.process p with place := .wait }).print
        (.parent p (m.getppid p) q))
  | reap (z : Nat) (place : (m.process p).place = .wait) (zombie : m.IsZombie p z)
      (waits : v = .waiting) :
      Move v num m p ((m.move z { m.process z with place := .reaped }).move p
        { m.process p with place := .post })
  | goOn (place : (m.process p).place = .wait) (alone : v = .waiting → ¬ m.HasChild p) :
      Move v num m p (m.move p { m.process p with place := .post })
  | child (place : (m.process p).place = .child) (waits : v = .waiting) :
      Move v num m p ((m.move p { m.process p with place := .post }).print
        (.child p (m.getppid p) none))
  | word (place : (m.process p).place = .child) (sleeps : v ≠ .waiting) (orphaned : Bool) :
      Move v num m p (m.move p { m.process p with place := .word orphaned })
  | orphan (orphaned : Bool) (place : (m.process p).place = .word orphaned) :
      Move v num m p ((m.move p { m.process p with place := .post }).print
        (.child p (m.getppid p) (some orphaned)))
  | post (place : (m.process p).place = .post) :
      Move v num m p ((m.move p { m.process p with i := (m.process p).i + 1, place := .loop }).print
        (.post (m.process p).i p))

theorem move_of_main (h : main v num m p e = some m') : Move v num m p m' := by
  unfold main at h
  cases hpc : (m.process p).place with
  | exited | reaped =>
    simp only [hpc] at h
    cases h
  | loop =>
    simp only [hpc] at h
    split at h <;> cases h
    · rename_i hmore
      exact .turn hpc hmore
    · rename_i henough
      exact .leave hpc (Nat.le_of_not_lt henough)
  | fork =>
    simp only [hpc] at h
    cases h
    exact .fork hpc
  | parent q =>
    simp only [hpc] at h
    cases h
    exact .parent q hpc
  | child =>
    simp only [hpc] at h
    split at h <;> cases h
    · rename_i hv
      exact .child hpc hv
    · rename_i hv
      exact .word hpc hv _
  | word orphaned =>
    simp only [hpc] at h
    cases h
    exact .orphan orphaned hpc
  | post =>
    simp only [hpc] at h
    cases h
    exact .post hpc
  | wait =>
    simp only [hpc] at h
    split at h
    · rename_i hv
      cases e with
      | none =>
        simp only at h
        split at h <;> cases h
        rename_i halone
        exact .goOn hpc fun _ => halone
      | some z =>
        simp only at h
        split at h <;> cases h
        rename_i hzombie
        exact .reap z hpc hzombie hv
    · rename_i hv
      cases h
      exact .goOn hpc fun hw => absurd hw hv

theorem move_of_step {a : Nat × Event} (h : step v num m a = some m') :
    a.1 < m.next ∧ Move v num m a.1 m' := by
  unfold step at h
  split at h
  · rename_i hborn
    exact ⟨hborn, move_of_main h⟩
  · cases h

/-! ## 2. The turns of the loop -/

def Place.Within (v : Version) (num i : Nat) : Place → Prop
  | .loop => i ≤ num
  | .fork | .parent _ | .wait | .child | .post => i < num
  | .word _ => v ≠ .waiting ∧ i < num
  | .exited => i ≤ num
  | .reaped => True

/-- A turn is begun if it is in front of `NUM`, and there are no processes but those that were
    forked. -/
structure Sane (v : Version) (num : Nat) (m : Machine) : Prop where
  within : ∀ p, (m.process p).place.Within v num (m.process p).i
  unborn : ∀ p, m.next ≤ p → (m.process p).place = .reaped

theorem sane_start (v : Version) (num : Nat) : Sane v num start := by
  refine ⟨fun p => ?_, fun p hp => ?_⟩
  · show (if p = 1 then Place.loop else Place.reaped).Within v num 0
    split
    · exact Nat.zero_le num
    · trivial
  · have hne : p ≠ 1 := fun h => by
      subst h
      exact absurd hp (by decide)
    exact if_neg hne

theorem sane_move (h : Sane v num m) (hp : p < m.next) {r : Process}
    (hr : r.place.Within v num r.i) : Sane v num (m.move p r) := by
  refine ⟨fun q => ?_, fun q hq => ?_⟩
  · by_cases hqp : q = p
    · subst hqp
      rw [move_self]
      exact hr
    · rw [move_of_ne hqp]
      exact h.within q
  · rw [move_of_ne (Nat.ne_of_gt (Nat.lt_of_lt_of_le hp hq))]
    exact h.unborn q hq

theorem sane_print (h : Sane v num m) (line : Line) : Sane v num (m.print line) :=
  ⟨h.within, h.unborn⟩

theorem zombie_born (h : Sane v num m) {z : Nat} (hz : m.IsZombie p z) : z < m.next := by
  by_contra hunborn
  have := h.unborn z (Nat.le_of_not_lt hunborn)
  rw [hz.2] at this
  cases this

theorem sane_step (h : Sane v num m) (hp : p < m.next) (hmove : Move v num m p m') :
    Sane v num m' := by
  have hwithin := h.within p
  cases hmove with
  | turn _ hmore => exact sane_print (sane_move h hp (by exact hmore)) _
  | leave hpc | parent _ hpc | child hpc | post hpc =>
    rw [hpc] at hwithin
    exact sane_print (sane_move h hp (by exact hwithin)) _
  | goOn hpc =>
    rw [hpc] at hwithin
    exact sane_move h hp (by exact hwithin)
  | word hpc hsleeps =>
    rw [hpc] at hwithin
    exact sane_move h hp ⟨hsleeps, hwithin⟩
  | orphan _ hpc =>
    rw [hpc] at hwithin
    exact sane_print (sane_move h hp (by exact hwithin.2)) _
  | reap z hpc hzombie =>
    rw [hpc] at hwithin
    exact sane_move (sane_move h (zombie_born h hzombie) (by exact trivial)) hp (by exact hwithin)
  | fork hpc =>
    rw [hpc] at hwithin
    refine ⟨fun q => ?_, fun q hq => ?_⟩
    · by_cases hnew : q = m.next
      · subst hnew
        rw [fork_new]
        exact hwithin
      · by_cases hqp : q = p
        · subst hqp
          rw [fork_self hp]
          exact hwithin
        · rw [fork_of_ne hqp hnew]
          exact h.within q
    · rw [fork_next] at hq
      rw [fork_of_ne (by omega) (by omega)]
      exact h.unborn q (by omega)

/-! ## 3. What is due -/

inductive Call
  | loop
  | fork
  | parent
  | wait
  | child
  | word
  | post

def Place.call : Place → Option Call
  | .loop => some .loop
  | .fork => some .fork
  | .parent _ => some .parent
  | .wait => some .wait
  | .child => some .child
  | .word _ => some .word
  | .post => some .post
  | .exited | .reaped => none

/-- What a call in a turn counts. -/
abbrev Weight : Type := Call → Nat → Nat

/-- A child is at `word` in the version that sleeps only. -/
def Weight.Fits (v : Version) (w : Weight) : Prop := v = .waiting → ∀ i, w .word i = 0

variable (w : Weight)

/-- What is due to a process in front of its loop and to all its descendants, with `k` turns
    to go. -/
def loopDue (num : Nat) : Nat → Nat
  | 0 => w .loop num
  | k + 1 =>
    let i := num - (k + 1)
    w .loop i + w .fork i + w .parent i + w .wait i + w .child i + w .word i + 2 * w .post i +
      2 * loopDue num k

def due (num : Nat) (r : Process) : Nat :=
  let rest := loopDue w num (num - (r.i + 1))
  match r.place with
  | .loop => loopDue w num (num - r.i)
  | .fork =>
    w .fork r.i + w .parent r.i + w .wait r.i + w .child r.i + w .word r.i + 2 * w .post r.i +
      2 * rest
  | .parent _ => w .parent r.i + w .wait r.i + w .post r.i + rest
  | .wait => w .wait r.i + w .post r.i + rest
  | .child => w .child r.i + w .word r.i + w .post r.i + rest
  | .word _ => w .word r.i + w .post r.i + rest
  | .post => w .post r.i + rest
  | .exited | .reaped => 0

def paid (r : Process) : Nat := (r.place.call.map fun call => w call r.i).getD 0

def total (f : Process → Nat) (m : Machine) : Nat := ∑ p ∈ Finset.range m.next, f (m.process p)

theorem total_move (f : Process → Nat) (hp : p < m.next) (r : Process) :
    total f (m.move p r) + f (m.process p) = total f m + f r := by
  have hmem : p ∈ Finset.range m.next := Finset.mem_range.mpr hp
  have hrest : ∑ q ∈ (Finset.range m.next).erase p, f ((m.move p r).process q) =
      ∑ q ∈ (Finset.range m.next).erase p, f (m.process q) :=
    Finset.sum_congr rfl fun q hq => by rw [move_of_ne (Finset.ne_of_mem_erase hq)]
  show ∑ q ∈ Finset.range m.next, f ((m.move p r).process q) + _ =
    ∑ q ∈ Finset.range m.next, f (m.process q) + _
  rw [← Finset.add_sum_erase _ _ hmem, ← Finset.add_sum_erase _ (fun q => f (m.process q)) hmem,
    hrest, move_self]
  ring

theorem total_fork (f : Process → Nat) (hp : p < m.next) (r : Process) :
    total f (m.fork p r) + f (m.process p) = total f m + f { r with place := .parent m.next } +
      f { r with ppid := .process p, place := .child } := by
  have hmove := total_move f hp { r with place := .parent m.next }
  have hsum : total f (m.fork p r) = total f (m.move p { r with place := .parent m.next }) +
      f { r with ppid := .process p, place := .child } := by
    show ∑ q ∈ Finset.range (m.next + 1), f ((m.fork p r).process q) = _
    rw [Finset.sum_range_succ, fork_new]
    refine congrArg (· + _) (Finset.sum_congr rfl fun q hq => ?_)
    exact congrArg f (Function.update_of_ne (Nat.ne_of_lt (Finset.mem_range.mp hq)) ..)
  omega

theorem loopDue_succ (hi : i < num) : loopDue w num (num - i) =
    w .loop i + w .fork i + w .parent i + w .wait i + w .child i + w .word i + 2 * w .post i +
      2 * loopDue w num (num - (i + 1)) := by
  obtain ⟨k, rfl⟩ := Nat.exists_eq_add_of_lt hi
  have hk : i + k + 1 - i = k + 1 := by omega
  have hrest : i + k + 1 - (i + 1) = k := by omega
  have hturn : i + k + 1 - (k + 1) = i := by omega
  rw [hk, hrest, loopDue, hturn]

theorem due_move (hp : p < m.next) {r : Process}
    (hpays : due w num r + paid w (m.process p) = due w num (m.process p)) :
    total (due w num) (m.move p r) + paid w (m.process p) = total (due w num) m := by
  have := total_move (due w num) hp r
  omega

/-- **A step pays what is due for it.** -/
theorem due_step (hw : w.Fits v) (h : Sane v num m) (hp : p < m.next) (hmove : Move v num m p m') :
    total (due w num) m' + paid w (m.process p) = total (due w num) m := by
  have hwithin := h.within p
  cases hmove with
  | turn hpc hmore =>
    refine due_move w hp ?_
    simp only [due, paid, hpc, Place.call, Option.map_some, Option.getD_some, loopDue_succ w hmore]
    omega
  | leave hpc henough =>
    rw [hpc] at hwithin
    have hlast : num - (m.process p).i = 0 := Nat.sub_eq_zero_of_le henough
    have hnum : (m.process p).i = num := Nat.le_antisymm hwithin henough
    refine due_move w hp ?_
    simp only [due, paid, hpc, Place.call, Option.map_some, Option.getD_some, hlast, loopDue]
    rw [hnum, Nat.zero_add]
  | parent _ hpc | goOn hpc | word hpc | orphan _ hpc | post hpc =>
    refine due_move w hp ?_
    simp only [due, paid, hpc, Place.call, Option.map_some, Option.getD_some]
    omega
  | child hpc hv =>
    have hword := hw hv (m.process p).i
    refine due_move w hp ?_
    simp only [due, paid, hpc, Place.call, Option.map_some, Option.getD_some]
    omega
  | reap z hpc hzombie =>
    -- nothing is due to a process that has exited
    have hgone := total_move (due w num) (zombie_born h hzombie)
      { m.process z with place := .reaped }
    have hnone : due w num { m.process z with place := .reaped } = 0 ∧
        due w num (m.process z) = 0 := by
      simp only [due, hzombie.2, and_self]
    have hpz : p ≠ z := by
      intro heq
      rw [heq, hzombie.2] at hpc
      cases hpc
    have hmoved := total_move (due w num)
      (show p < (m.move z { m.process z with place := .reaped }).next from hp)
      { m.process p with place := .post }
    rw [move_of_ne hpz] at hmoved
    have hpays : due w num { m.process p with place := .post } + paid w (m.process p) =
        due w num (m.process p) := by
      simp only [due, paid, hpc, Place.call, Option.map_some, Option.getD_some]
      omega
    omega
  | fork hpc =>
    have hforked : total (due w num) (m.fork p (m.process p)) + due w num (m.process p) =
        total (due w num) m + due w num { m.process p with place := .parent m.next } +
          due w num { m.process p with ppid := .process p, place := .child } :=
      total_fork (due w num) hp (m.process p)
    have hpays : due w num { m.process p with place := .parent m.next } +
        due w num { m.process p with ppid := .process p, place := .child } + paid w (m.process p) =
          due w num (m.process p) := by
      simp only [due, paid, hpc, Place.call, Option.map_some, Option.getD_some]
      omega
    omega

/-! ## 4. Every run -/

theorem sane_of_reaches (h : Reaches (step v num) (fun _ _ => True) start m) : Sane v num m := by
  refine h.invariant (sane_start v num) fun s a s' hs _ hstep => ?_
  obtain ⟨hborn, hmove⟩ := move_of_step hstep
  exact sane_step hs hborn hmove

theorem total_start : total (due w num) start = loopDue w num num := by
  show ∑ q ∈ Finset.range 2, due w num (start.process q) = _
  rw [Finset.sum_range_succ, Finset.sum_range_succ, Finset.sum_range_zero]
  show 0 + 0 + loopDue w num (num - 0) = _
  rw [Nat.sub_zero, Nat.add_zero, Nat.zero_add]

/-- **What is counted and what is due add up to the same number**, in all states of all runs. -/
theorem counted_eq (count : Machine → Nat) (hw : w.Fits v)
    (hcount : ∀ m m' p, Sane v num m → p < m.next → Move v num m p m' →
      count m' = count m + paid w (m.process p))
    (h : Reaches (step v num) (fun _ _ => True) start m) :
    count m + total (due w num) m = count start + loopDue w num num := by
  have hboth : Sane v num m ∧ count m + total (due w num) m = count start + loopDue w num num := by
    refine @Reaches.invariant _ _ (step v num) (fun _ _ => True) start m
      (fun m => Sane v num m ∧ count m + total (due w num) m = count start + loopDue w num num)
      ⟨sane_start v num, by rw [total_start]⟩ (fun s a s' hs _ hstep => ?_) h
    obtain ⟨hborn, hmove⟩ := move_of_step hstep
    refine ⟨sane_step hs.1 hborn hmove, ?_⟩
    rw [hcount s s' a.1 hs.1 hborn hmove, ← hs.2, ← due_step w hw hs.1 hborn hmove]
    omega
  exact hboth.2

/-! ## 5. Calls, processes and lines -/

def allCalls : Version → Weight
  | .waiting, .word, _ => 0
  | _, _, _ => 1

def forks : Weight
  | .fork, _ => 1
  | _, _ => 0

def parents : Weight
  | .parent, _ => 1
  | _, _ => 0

/-- The test of the loop, where its variable is `i`. -/
def tests (i : Nat) : Weight
  | .loop, j => if j = i then 1 else 0
  | _, _ => 0

/-- The calls of a turn, in both processes. -/
def Version.calls : Version → Nat
  | .waiting => 7
  | .sleeping => 8

theorem fits_allCalls : (allCalls v).Fits v := by
  intro hv i
  rw [hv, allCalls]

theorem loopDue_allCalls (v : Version) (num k : Nat) :
    loopDue (allCalls v) num k + v.calls = (v.calls + 1) * 2 ^ k := by
  induction k with
  | zero => cases v <;> rfl
  | succ k ih =>
    rw [loopDue, pow_succ]
    cases v <;> simp only [allCalls, Version.calls] at * <;> omega

theorem loopDue_forks (num k : Nat) : loopDue forks num k + 1 = 2 ^ k := by
  induction k with
  | zero => rfl
  | succ k ih =>
    rw [loopDue, pow_succ]
    simp only [forks] at *
    omega

theorem loopDue_parents (num k : Nat) : loopDue parents num k + 1 = 2 ^ k := by
  induction k with
  | zero => rfl
  | succ k ih =>
    rw [loopDue, pow_succ]
    simp only [parents] at *
    omega

theorem loopDue_tests_of_lt {i k : Nat} (hk : k ≤ num) (hi : i < num - k) :
    loopDue (tests i) num k = 0 := by
  induction k with
  | zero => exact if_neg (by omega)
  | succ k ih =>
    have hrest := ih (by omega) (by omega)
    have hother : num - (k + 1) ≠ i := by omega
    simp only [loopDue, tests, hrest, if_neg hother]

theorem loopDue_tests {i k : Nat} (hk : k ≤ num) (hi : i ≤ num) (hturn : num - k ≤ i) :
    loopDue (tests i) num k = 2 ^ (i - (num - k)) := by
  induction k with
  | zero =>
    have hlast : num = i := by omega
    rw [loopDue, tests, if_pos hlast]
    simp [hlast]
  | succ k ih =>
    by_cases hnow : num - (k + 1) = i
    · have hrest := @loopDue_tests_of_lt num i k (by omega) (by omega)
      simp only [loopDue, tests, hrest, if_pos hnow]
      simp [hnow]
    · have hrest := ih (by omega) (by omega)
      have hpow : i - (num - (k + 1)) = i - (num - k) + 1 := by omega
      simp only [loopDue, tests, hrest, if_neg hnow, hpow, pow_succ]
      omega

theorem fits_forks : forks.Fits v := fun _ _ => rfl

theorem fits_parents : parents.Fits v := fun _ _ => rfl

theorem fits_tests (i : Nat) : (tests i).Fits v := fun _ _ => rfl

theorem paid_allCalls (h : Sane v num m) (hmove : Move v num m p m') :
    paid (allCalls v) (m.process p) = 1 := by
  cases hmove with
  | turn hpc | leave hpc | parent _ hpc | goOn hpc | child hpc | post hpc | reap _ hpc | fork hpc
  | word hpc => simp [paid, hpc, Place.call, allCalls]
  | orphan o hpc =>
    have hwithin := h.within p
    rw [hpc] at hwithin
    cases v with
    | waiting => exact absurd rfl hwithin.1
    | sleeping => simp [paid, hpc, Place.call, allCalls]

def Line.isPre (i : Nat) : Line → Bool
  | .pre j _ => j = i
  | _ => false

def Line.isDone : Line → Bool
  | .done _ _ => true
  | _ => false

def Line.isParent : Line → Bool
  | .parent _ _ _ => true
  | _ => false

/-- A step prints one line at most, and which one depends on the call. -/
theorem countP_step {f : Line → Bool} (h : Sane v num m) (hmove : Move v num m p m')
    (hpre : ∀ pid i, i < num → w .loop i = (if f (.pre i pid) then 1 else 0))
    (hdone : w .loop num = (if f (.done p num) then 1 else 0))
    (hparent : ∀ ppid q i, w .parent i = (if f (.parent p ppid q) then 1 else 0))
    (hchild : ∀ ppid o, f (.child p ppid o) = false)
    (hpost : ∀ i, w .post i = (if f (.post i p) then 1 else 0))
    (hnone : ∀ i, w .fork i = 0 ∧ w .wait i = 0 ∧ w .child i = 0 ∧ w .word i = 0) :
    m'.out.countP f = m.out.countP f + paid w (m.process p) := by
  have hwithin := h.within p
  cases hmove with
  | turn hpc hmore =>
    have hpays := hpre (if v = .waiting then none else some p) _ hmore
    rw [print_out, move_out, List.countP_append, List.countP_singleton]
    simp only [paid, hpc, Place.call, Option.map_some, Option.getD_some, hpays]
  | leave hpc henough =>
    rw [hpc] at hwithin
    have hnum : (m.process p).i = num := Nat.le_antisymm hwithin henough
    rw [print_out, move_out, List.countP_append, List.countP_singleton]
    simp only [paid, hpc, Place.call, Option.map_some, Option.getD_some, hnum, hdone]
  | parent q hpc =>
    rw [print_out, move_out, List.countP_append, List.countP_singleton]
    simp only [paid, hpc, Place.call, Option.map_some, Option.getD_some, hparent (m.getppid p) q]
  | goOn hpc =>
    rw [move_out]
    simp only [paid, hpc, Place.call, Option.map_some, Option.getD_some, (hnone _).2.1,
      Nat.add_zero]
  | child hpc =>
    rw [print_out, move_out, List.countP_append, List.countP_singleton]
    simp [paid, hpc, Place.call, hchild (m.getppid p), (hnone _).2.2.1]
  | word hpc =>
    rw [move_out]
    simp only [paid, hpc, Place.call, Option.map_some, Option.getD_some, (hnone _).2.2.1,
      Nat.add_zero]
  | orphan _ hpc =>
    rw [print_out, move_out, List.countP_append, List.countP_singleton]
    simp [paid, hpc, Place.call, hchild (m.getppid p), (hnone _).2.2.2]
  | post hpc =>
    rw [print_out, move_out, List.countP_append, List.countP_singleton]
    simp only [paid, hpc, Place.call, Option.map_some, Option.getD_some, hpost]
  | reap z hpc =>
    rw [move_out, move_out]
    simp only [paid, hpc, Place.call, Option.map_some, Option.getD_some, (hnone _).2.1,
      Nat.add_zero]
  | fork hpc =>
    rw [fork_out]
    simp only [paid, hpc, Place.call, Option.map_some, Option.getD_some, (hnone _).1, Nat.add_zero]

theorem next_step (hmove : Move v num m p m') : m'.next = m.next + paid forks (m.process p) := by
  cases hmove with
  | fork hpc => simp [paid, hpc, Place.call, forks]
  | turn hpc | leave hpc | parent _ hpc | goOn hpc | child hpc | word hpc | orphan _ hpc | post hpc
  | reap _ hpc => simp [paid, hpc, Place.call, forks]

/-- A state in which nothing is due. -/
def Ended (m : Machine) : Prop := ∀ p, (m.process p).place.Gone

theorem total_eq_zero (h : Ended m) : total (due w num) m = 0 := by
  refine Finset.sum_eq_zero fun p _ => ?_
  rcases h p with hpc | hpc <;> simp only [due, hpc]

theorem length_eq {as : List (Nat × Event)} (h : Sane v num m)
    (hrun : run (step v num) as m = some m') :
    as.length + total (due (allCalls v) num) m' = total (due (allCalls v) num) m := by
  induction as generalizing m with
  | nil =>
    cases hrun
    exact Nat.zero_add _
  | cons a as ih =>
    obtain ⟨m₁, hm₁, hrest⟩ := Option.bind_eq_some_iff.mp hrun
    obtain ⟨hborn, hmove⟩ := move_of_step hm₁
    have hlater := ih (sane_step h hborn hmove) hrest
    have hpays := due_step (allCalls v) fits_allCalls h hborn hmove
    rw [paid_allCalls h hmove] at hpays
    rw [List.length_cons]
    omega

end ForkTree
end Labs
