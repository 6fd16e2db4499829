import Mathlib.Algebra.BigOperators.Fin
import Mathlib.Data.Set.Insert
import Mathlib.Logic.Function.Basic
import Mathlib.Tactic.Linarith
import Mathlib.Tactic.Ring

/-!
# Processes that share a memory and semaphores

A system is a family of sequential processes over one memory of type `M` and semaphores named by
`X`. A process is given by what it does at each place of its program: `next p pc m e` is the place
it goes to, the memory it leaves and the one thing it does to the semaphores, where `e` is what the
world decides in that step. The processes take their steps in any order.

The reasoning is that of a program with locks, in four rules:

* `Reaches.invariant`, the induction over a run;
* `Locks`: when every place says which semaphores are held there, and `next` keeps to it
  (`Disciplined`), a semaphore that starts at one is held by one process at most;
* `Sound`: an assertion for each place of each process holds in every reachable state, if the
  steps of the process keep it, and the steps of any process *that holds nothing the first one
  holds* keep it too;
* `Balanced`: a quantity of the memory that changes by what the moving process gains or loses.

A semaphore may be given up without a `post`, as by a process that dies; then it stays taken.

## States that are reached, and lists of steps

`Reaches` is for what holds of every state, and `run` for a run that is given. The predicates over
lists are for statements about whole runs with a condition on their steps. They differ in what they
say of a list whose steps cannot all be taken: `Visits`, `Takes` and `Throughout` speak of what
comes before that, and `Proceeds` says that there is no such step. The equivalences between them are
proved once, from what one step does (`visits_iff_takes`, `proceeds_iff_throughout`).

`allowed` is the assumption of a run: which calls may fail, which places may be entered. It is about
a step and the state in front of it, so that one program has as many kinds of runs as there are
assumptions.

A run that comes to an end needs a measure besides. `runIf_goal` is the rule for that: some steps
count, each of these takes something of the rank, and as many of them as the rank at the start lead
to the goal.
-/

namespace Labs
namespace Lib

/-! ## 1. Runs -/

section Runs

variable {σ α : Type} {step : σ → α → Option σ} {allowed : σ → α → Prop} {s₀ s s' : σ}

/-- The states that the steps which are `allowed` lead to. -/
inductive Reaches (step : σ → α → Option σ) (allowed : σ → α → Prop) (s₀ : σ) : σ → Prop
  | start : Reaches step allowed s₀ s₀
  | next {s s' : σ} {a : α} (before : Reaches step allowed s₀ s) (ok : allowed s a)
      (moves : step s a = some s') : Reaches step allowed s₀ s'

theorem Reaches.invariant {Inv : σ → Prop} (h₀ : Inv s₀)
    (hstep : ∀ s a s', Inv s → allowed s a → step s a = some s' → Inv s')
    (h : Reaches step allowed s₀ s) : Inv s := by
  induction h with
  | start => exact h₀
  | next before ok moves ih => exact hstep _ _ _ ih ok moves

theorem Reaches.trans (h : Reaches step allowed s₀ s) (h' : Reaches step allowed s s') :
    Reaches step allowed s₀ s' := by
  induction h' with
  | start => exact h
  | next _ ok moves ih => exact ih.next ok moves

/-- The state after a list of steps. -/
def run (step : σ → α → Option σ) : List α → σ → Option σ
  | [], s => some s
  | a :: as, s => (step s a).bind (run step as)

theorem run_append (as bs : List α) (s : σ) :
    run step (as ++ bs) s = (run step as s).bind (run step bs) := by
  induction as generalizing s with
  | nil => rfl
  | cons a as ih =>
    show (step s a).bind (run step (as ++ bs)) = ((step s a).bind (run step as)).bind _
    rw [Option.bind_assoc]
    exact Option.bind_congr fun s₁ _ => ih s₁

theorem reaches_of_run {as : List α} (hall : ∀ a ∈ as, ∀ s, allowed s a)
    (hs : Reaches step allowed s₀ s) (h : run step as s = some s') :
    Reaches step allowed s₀ s' := by
  induction as generalizing s with
  | nil =>
    cases h
    exact hs
  | cons a as ih =>
    obtain ⟨s₁, hs₁, hrun⟩ := Option.bind_eq_some_iff.mp h
    exact ih (fun b hb => hall b (List.mem_cons_of_mem _ hb))
      (hs.next (hall a List.mem_cons_self s) hs₁) hrun

/-- The state after a list of steps, if all of them are `allowed`. -/
def runIf (step : σ → α → Option σ) (allowed : σ → α → Prop) [∀ s a, Decidable (allowed s a)] :
    List α → σ → Option σ
  | [], s => some s
  | a :: as, s => if allowed s a then (step s a).bind (runIf step allowed as) else none

/-- **A bounded wait**: as long as the goal is not reached each step that counts takes something of
    the rank, and no step adds to it. So a run with as many steps that count reaches the goal, if that
    is not left again. -/
theorem runIf_goal [∀ s a, Decidable (allowed s a)] {pending goal : σ → Prop} {rank : σ → Nat}
    {counts : α → Bool} (hpos : ∀ s, pending s → 0 < rank s)
    (hgoal : ∀ s a s', goal s → allowed s a → step s a = some s' → goal s')
    (hpending : ∀ s a s', pending s → allowed s a → step s a = some s' →
      goal s' ∨ pending s' ∧ rank s' + (counts a).toNat ≤ rank s)
    {as : List α} (hs : goal s ∨ pending s ∧ rank s ≤ as.countP counts)
    (h : runIf step allowed as s = some s') : goal s' := by
  induction as generalizing s with
  | nil =>
    cases h
    rcases hs with hs | ⟨hs, hrank⟩
    · exact hs
    · exact absurd (hpos _ hs) (Nat.not_lt.mpr hrank)
  | cons a as ih =>
    unfold runIf at h
    split at h
    · rename_i hok
      obtain ⟨s₁, hs₁, hrun⟩ := Option.bind_eq_some_iff.mp h
      refine ih ?_ hrun
      rcases hs with hs | ⟨hs, hrank⟩
      · exact .inl (hgoal s a s₁ hs hok hs₁)
      · refine (hpending s a s₁ hs hok hs₁).imp_right fun hnext => ⟨hnext.1, ?_⟩
        have hless := hnext.2
        rw [List.countP_cons] at hrank
        cases hcounts : counts a with
        | false =>
          rw [hcounts] at hrank hless
          simp only [Bool.toNat_false, Bool.false_eq_true, if_false] at hrank hless
          omega
        | true =>
          rw [hcounts] at hrank hless
          simp only [Bool.toNat_true, if_true] at hrank hless
          omega
    · cases h

theorem reaches_of_runIf [∀ s a, Decidable (allowed s a)] {as : List α}
    (hs : Reaches step allowed s₀ s) (h : runIf step allowed as s = some s') :
    Reaches step allowed s₀ s' := by
  induction as generalizing s with
  | nil =>
    cases h
    exact hs
  | cons a as ih =>
    unfold runIf at h
    split at h
    · rename_i hok
      obtain ⟨s₁, hs₁, hrun⟩ := Option.bind_eq_some_iff.mp h
      exact ih (hs.next hok hs₁) hrun
    · cases h

/-- Every state of the run satisfies `Q`. -/
def Visits (step : σ → α → Option σ) (Q : σ → Prop) : List α → σ → Prop
  | [], s => Q s
  | a :: as, s => Q s ∧ ∀ s', step s a = some s' → Visits step Q as s'

/-- Every step of the run satisfies `R`. -/
def Takes (step : σ → α → Option σ) (R : σ → α → Prop) : List α → σ → Prop
  | [], _ => True
  | a :: as, s => ∀ s', step s a = some s' → R s a ∧ Takes step R as s'

theorem Visits.head {Q : σ → Prop} {as : List α} (h : Visits step Q as s) : Q s := by
  cases as with
  | nil => exact h
  | cons a as => exact h.1

theorem Visits.of_run {Q : σ → Prop} {as : List α} (h : Visits step Q as s)
    (hrun : run step as s = some s') : Q s' := by
  induction as generalizing s with
  | nil =>
    cases hrun
    exact h
  | cons a as ih =>
    obtain ⟨s₁, hs₁, hrun⟩ := Option.bind_eq_some_iff.mp hrun
    exact ih (h.2 s₁ hs₁) hrun

theorem visits_cons_iff {Q : σ → Prop} {as : List α} {a : α} {s₁ : σ} (h : step s a = some s₁) :
    Visits step Q (a :: as) s ↔ Q s ∧ Visits step Q as s₁ := by
  refine and_congr_right fun _ => ⟨fun hall => hall s₁ h, fun hrest s' hs' => ?_⟩
  cases h.symm.trans hs'
  exact hrest

theorem visits_cons_of_none {Q : σ → Prop} {as : List α} {a : α} (h : step s a = none) :
    Visits step Q (a :: as) s ↔ Q s := by
  refine ⟨fun hall => hall.1, fun hQ => ⟨hQ, fun s' hs' => ?_⟩⟩
  cases h.symm.trans hs'

instance decidableVisits {Q : σ → Prop} [∀ s, Decidable (Q s)] :
    (as : List α) → (s : σ) → Decidable (Visits step Q as s)
  | [], s => inferInstanceAs (Decidable (Q s))
  | a :: as, s =>
    match h : step s a with
    | none => decidable_of_iff' _ (visits_cons_of_none h)
    | some s₁ =>
      have _hrest : Decidable (Visits step Q as s₁) := decidableVisits as s₁
      decidable_of_iff' _ (visits_cons_iff h)

theorem Takes.of_run {R : σ → α → Prop} {as bs : List α} (h : Takes step R (as ++ bs) s)
    (hrun : run step as s = some s') : Takes step R bs s' := by
  induction as generalizing s with
  | nil =>
    cases hrun
    exact h
  | cons a as ih =>
    obtain ⟨s₁, hs₁, hrun⟩ := Option.bind_eq_some_iff.mp hrun
    exact ih (h s₁ hs₁).2 hrun

theorem takes_congr {Inv : σ → Prop} {R R' : σ → α → Prop} {as : List α}
    (hinv : ∀ s a s', Inv s → step s a = some s' → Inv s')
    (hR : ∀ s a s', Inv s → step s a = some s' → (R s a ↔ R' s a)) (h₀ : Inv s) :
    Takes step R as s ↔ Takes step R' as s := by
  induction as generalizing s with
  | nil => exact Iff.rfl
  | cons a as ih =>
    exact forall_congr' fun s' => forall_congr' fun hs' =>
      and_congr (hR s a s' h₀ hs') (ih (hinv s a s' h₀ hs'))

/-- What the steps that satisfy `R` keep holds in every state of the run. -/
theorem visits_of_takes {Inv Q : σ → Prop} {R : σ → α → Prop} {as : List α}
    (hinv : ∀ s a s', Inv s → R s a → step s a = some s' → Inv s') (hQ : ∀ s, Inv s → Q s)
    (h₀ : Inv s) (htakes : Takes step R as s) : Visits step Q as s := by
  induction as generalizing s with
  | nil => exact hQ s h₀
  | cons a as ih =>
    refine ⟨hQ s h₀, fun s' hs' => ?_⟩
    obtain ⟨hR, hrest⟩ := htakes s' hs'
    exact ih (hinv s a s' h₀ hR hs') hrest

/-- A property of the states that depends on the step that leads to them. -/
theorem visits_iff_takes {Inv Q : σ → Prop} {R : σ → α → Prop} {as : List α}
    (hinv : ∀ s a s', Inv s → step s a = some s' → Inv s')
    (hstep : ∀ s a s', Inv s → Q s → step s a = some s' → (Q s' ↔ R s a)) (h₀ : Inv s)
    (hQ : Q s) : Visits step Q as s ↔ Takes step R as s := by
  induction as generalizing s with
  | nil => exact ⟨fun _ => trivial, fun _ => hQ⟩
  | cons a as ih =>
    constructor
    · rintro ⟨-, hrest⟩ s' hs'
      have hvisits := hrest s' hs'
      have hQ' : Q s' := hvisits.head
      exact ⟨(hstep s a s' h₀ hQ hs').mp hQ', (ih (hinv s a s' h₀ hs') hQ').mp hvisits⟩
    · intro htakes
      refine ⟨hQ, fun s' hs' => ?_⟩
      obtain ⟨hR, hrest⟩ := htakes s' hs'
      have hQ' := (hstep s a s' h₀ hQ hs').mpr hR
      exact (ih (hinv s a s' h₀ hs') hQ').mpr hrest

/-- Two properties that are the same where the run can be. -/
theorem visits_congr {Inv Q Q' : σ → Prop} {P : α → Prop} {as : List α}
    (hinv : ∀ s a s', Inv s → P a → step s a = some s' → Inv s') (hall : ∀ a ∈ as, P a)
    (hQ : ∀ s, Inv s → (Q s ↔ Q' s)) (h₀ : Inv s) : Visits step Q as s ↔ Visits step Q' as s := by
  induction as generalizing s with
  | nil => exact hQ s h₀
  | cons a as ih =>
    have hrest := fun s' hs' =>
      ih (fun b hb => hall b (List.mem_cons_of_mem a hb))
        (hinv s a s' h₀ (hall a List.mem_cons_self) hs')
    exact and_congr (hQ s h₀) (forall_congr' fun s' => forall_congr' fun hs' => hrest s' hs')

/-- Every step of the run can be taken, and every state of it satisfies `Q`. -/
def Proceeds (step : σ → α → Option σ) (Q : σ → Prop) : List α → σ → Prop
  | [], s => Q s
  | a :: as, s => Q s ∧ ∃ s', step s a = some s' ∧ Proceeds step Q as s'

/-- Every state of the run and the step that is taken from it satisfy `R`. -/
def Throughout (step : σ → α → Option σ) (R : σ → α → Prop) : List α → σ → Prop
  | [], _ => True
  | a :: as, s => R s a ∧ ∀ s', step s a = some s' → Throughout step R as s'

theorem Proceeds.head {Q : σ → Prop} {as : List α} (h : Proceeds step Q as s) : Q s := by
  cases as with
  | nil => exact h
  | cons a as => exact h.1

theorem Proceeds.visits {Q : σ → Prop} {as : List α} (h : Proceeds step Q as s) :
    Visits step Q as s := by
  induction as generalizing s with
  | nil => exact h
  | cons a as ih =>
    obtain ⟨hQ, s₁, hs₁, hrest⟩ := h
    refine ⟨hQ, fun s' hs' => ?_⟩
    cases hs₁.symm.trans hs'
    exact ih hrest

/-- A run goes on as long as the steps are those that lead to `Q` again. -/
theorem proceeds_iff_throughout {Inv Q : σ → Prop} {R : σ → α → Prop} {as : List α}
    (hinv : ∀ s a s', Inv s → Q s → step s a = some s' → Q s' → Inv s')
    (hstep : ∀ s a, Inv s → Q s → (R s a ↔ ∃ s', step s a = some s' ∧ Q s')) (h₀ : Inv s)
    (hQ : Q s) : Proceeds step Q as s ↔ Throughout step R as s := by
  induction as generalizing s with
  | nil => exact ⟨fun _ => trivial, fun _ => hQ⟩
  | cons a as ih =>
    constructor
    · rintro ⟨-, s₁, hs₁, hrest⟩
      have hQ₁ := hrest.head
      refine ⟨(hstep s a h₀ hQ).mpr ⟨s₁, hs₁, hQ₁⟩, fun s' hs' => ?_⟩
      cases hs₁.symm.trans hs'
      exact (ih (hinv s a s₁ h₀ hQ hs₁ hQ₁) hQ₁).mp hrest
    · rintro ⟨hR, hrest⟩
      obtain ⟨s₁, hs₁, hQ₁⟩ := (hstep s a h₀ hQ).mp hR
      exact ⟨hQ, s₁, hs₁, (ih (hinv s a s₁ h₀ hQ hs₁ hQ₁) hQ₁).mpr (hrest s₁ hs₁)⟩

/-- What the steps of a run keep, if they satisfy `R` and lead to `Q`. -/
theorem visits_of_throughout {Inv Q Q' : σ → Prop} {R : σ → α → Prop} {as : List α}
    (hinv : ∀ s a s', Inv s → R s a → step s a = some s' → Q s' → Inv s')
    (hQ : ∀ s, Inv s → Q' s) (h₀ : Inv s) (hvisits : Visits step Q as s)
    (hall : Throughout step R as s) : Visits step Q' as s := by
  induction as generalizing s with
  | nil => exact hQ s h₀
  | cons a as ih =>
    refine ⟨hQ s h₀, fun s' hs' => ?_⟩
    have hrest := hvisits.2 s' hs'
    exact ih (hinv s a s' h₀ hall.1 hs' hrest.head) hrest (hall.2 s' hs')

end Runs

/-! ## 2. Systems -/

/-- What a step does to the semaphores. -/
inductive SemOp (X : Type)
  | skip
  | wait (x : X)
  | post (x : X)
  | leave (x : X)

theorem SemOp.of_skip_eq_post {X : Type} {x : X} {P : Prop} (h : SemOp.skip = .post x) : P := by
  cases h

theorem SemOp.of_wait_eq_post {X : Type} {x y : X} {P : Prop} (h : SemOp.wait x = .post y) : P := by
  cases h

/-- What the processes do at each place. -/
abbrev Program (P : Type) (Pc : P → Type) (M X E : Type) : Type :=
  (p : P) → Pc p → M → E → Option (Pc p × M × SemOp X)

structure Sys (P : Type) (Pc : P → Type) (M X : Type) where
  pc : (p : P) → Pc p
  mem : M
  sem : X → Int

variable {P : Type} {Pc : P → Type} {M X E : Type}

/-- The semaphores after the operation, if it does not block. -/
def SemOp.apply [DecidableEq X] : SemOp X → (X → Int) → Option (X → Int)
  | .skip, sem => some sem
  | .wait x, sem => if 0 < sem x then some (Function.update sem x (sem x - 1)) else none
  | .post x, sem => some (Function.update sem x (sem x + 1))
  | .leave _, sem => some sem

theorem SemOp.apply_wait_of_one [DecidableEq X] {x : X} {sem : X → Int} (h : sem x = 1) :
    (SemOp.wait x).apply sem = some (Function.update sem x 0) := by
  simp [SemOp.apply, h]

theorem SemOp.apply_post_of_zero [DecidableEq X] {x : X} {sem : X → Int} (h : sem x = 0) :
    (SemOp.post x).apply sem = some (Function.update sem x 1) := by
  simp [SemOp.apply, h]

/-- What the operation adds to the semaphore `x`. -/
def SemOp.change [DecidableEq X] (x : X) : SemOp X → Int
  | .wait y => if x = y then -1 else 0
  | .post y => if x = y then 1 else 0
  | .skip | .leave _ => 0

/-- A semaphore changes by what the operation adds, and does not become negative. -/
theorem SemOp.apply_eq_some [DecidableEq X] {op : SemOp X} {sem sem' : X → Int}
    (h : op.apply sem = some sem') (x : X) :
    sem' x = sem x + op.change x ∧ (0 ≤ sem x → 0 ≤ sem' x) := by
  cases op with
  | skip | leave y =>
    cases h
    exact ⟨(Int.add_zero _).symm, id⟩
  | wait y =>
    rw [SemOp.apply] at h
    split at h
    · rename_i hpos
      cases h
      by_cases hx : x = y
      · subst hx
        rw [Function.update_self, SemOp.change, if_pos rfl]
        exact ⟨rfl, fun _ => Int.sub_nonneg_of_le hpos⟩
      · rw [Function.update_of_ne hx, SemOp.change, if_neg hx]
        exact ⟨(Int.add_zero _).symm, id⟩
    · cases h
  | post y =>
    cases h
    by_cases hx : x = y
    · subst hx
      rw [Function.update_self, SemOp.change, if_pos rfl]
      exact ⟨rfl, fun hsem => Int.add_nonneg hsem Int.one_nonneg⟩
    · rw [Function.update_of_ne hx, SemOp.change, if_neg hx]
      exact ⟨(Int.add_zero _).symm, id⟩

namespace Sys

variable [DecidableEq P] [DecidableEq X]

def step (next : Program P Pc M X E) (s : Sys P Pc M X) (a : P × E) : Option (Sys P Pc M X) :=
  (next a.1 (s.pc a.1) s.mem a.2).bind fun r =>
    (r.2.2.apply s.sem).map fun sem => ⟨Function.update s.pc a.1 r.1, r.2.1, sem⟩

/-- **What a step can be**: a move of one process, and its operation does not block. -/
theorem step_cases {next : Program P Pc M X E} {s s' : Sys P Pc M X} {p : P} {e : E}
    (h : step next s (p, e) = some s') :
    ∃ pc m op sem, next p (s.pc p) s.mem e = some (pc, m, op) ∧ op.apply s.sem = some sem ∧
      s' = ⟨Function.update s.pc p pc, m, sem⟩ := by
  obtain ⟨⟨pc, m, op⟩, hnext, hop⟩ := Option.bind_eq_some_iff.mp h
  obtain ⟨sem, hsem, rfl⟩ := Option.map_eq_some_iff.mp hop
  exact ⟨pc, m, op, sem, hnext, hsem, rfl⟩

theorem step_isSome {next : Program P Pc M X E} {s : Sys P Pc M X} {p : P} {e : E}
    {r : Pc p × M × SemOp X} (hnext : next p (s.pc p) s.mem e = some r)
    (hfree : ∀ x, r.2.2 = .wait x → 0 < s.sem x) : (step next s (p, e)).isSome := by
  obtain ⟨pc, m, op⟩ := r
  have happly : ∃ sem, op.apply s.sem = some sem := by
    cases op with
    | wait x => exact ⟨_, if_pos (hfree x rfl)⟩
    | skip => exact ⟨_, rfl⟩
    | post x => exact ⟨_, rfl⟩
    | leave x => exact ⟨_, rfl⟩
  obtain ⟨sem, hsem⟩ := happly
  have hstep : step next s (p, e) = some ⟨Function.update s.pc p pc, m, sem⟩ :=
    Option.bind_eq_some_iff.mpr ⟨_, hnext, Option.map_eq_some_iff.mpr ⟨sem, hsem, rfl⟩⟩
  rw [hstep]
  rfl

/-- A step that does nothing to the semaphores. -/
theorem exists_step {next : Program P Pc M X E} {s : Sys P Pc M X} {p : P} {e : E} {pc : Pc p}
    {m : M} (h : next p (s.pc p) s.mem e = some (pc, m, .skip)) :
    ∃ s', step next s (p, e) = some s' ∧ s'.pc p = pc ∧ (∀ q, q ≠ p → s'.pc q = s.pc q) ∧
      s'.mem = m := by
  refine ⟨⟨Function.update s.pc p pc, m, s.sem⟩, ?_, ?_, fun q hq => ?_, rfl⟩
  · exact Option.bind_eq_some_iff.mpr ⟨_, h, rfl⟩
  · exact Function.update_self ..
  · exact Function.update_of_ne hq _ _

end Sys

/-! ## 3. Locks -/

/-- What the operation makes of the semaphores that the process holds. -/
def SemOp.Moves : SemOp X → Set X → Set X → Prop
  | .skip, A, B => B = A
  | .wait x, A, B => B = insert x A
  | .post x, A, B => x ∈ A ∧ B = A \ {x}
  | .leave x, A, B => x ∈ A ∧ B = A \ {x}

theorem SemOp.moves_wait (x : X) : (SemOp.wait x).Moves ∅ {x} := by
  show {x} = insert x ∅
  exact (insert_empty_eq x).symm

theorem SemOp.moves_post (x : X) : (SemOp.post x).Moves {x} ∅ :=
  ⟨rfl, Set.sdiff_self.symm⟩

/-- The operation moves the semaphores so, and gives none up without a `post`. -/
def SemOp.Keeps (op : SemOp X) (A B : Set X) : Prop := op.Moves A B ∧ ∀ x, op ≠ .leave x

theorem SemOp.keeps_skip (A : Set X) : SemOp.skip.Keeps A A := ⟨rfl, nofun⟩

theorem SemOp.keeps_wait (x : X) : (SemOp.wait x).Keeps ∅ {x} := ⟨moves_wait x, nofun⟩

theorem SemOp.keeps_post (x : X) : (SemOp.post x).Keeps {x} ∅ := ⟨moves_post x, nofun⟩

/-- The program does to the semaphores what the places say it holds. -/
def Disciplined (next : Program P Pc M X E) (held : (p : P) → Pc p → Set X) : Prop :=
  ∀ p pc m e pc' m' op, next p pc m e = some (pc', m', op) → op.Moves (held p pc) (held p pc')

/-- Every semaphore is free or held by one process. -/
structure Locks (held : (p : P) → Pc p → Set X) (pcs : (p : P) → Pc p) (sem : X → Int) :
    Prop where
  binary : ∀ x, sem x = 0 ∨ sem x = 1
  busy : ∀ p x, x ∈ held p (pcs p) → sem x = 0
  alone : ∀ p q x, x ∈ held p (pcs p) → x ∈ held q (pcs q) → p = q

namespace Locks

variable {held : (p : P) → Pc p → Set X} {pcs : (p : P) → Pc p} {sem sem' : X → Int} {p : P}
  {pc : Pc p} {x : X}

/-- Two processes hold different things. -/
theorem apart (h : Locks held pcs sem) {q : P} (hne : q ≠ p) :
    ∀ x ∈ held p (pcs p), x ∉ held q (pcs q) :=
  fun x hp hq => hne (h.alone q p x hq hp)

/-- With all semaphores at one and nothing held. -/
theorem initial (hheld : ∀ p, held p (pcs p) = ∅) (hsem : ∀ x, sem x = 1) :
    Locks held pcs sem := by
  have hnot : ∀ p x, x ∉ held p (pcs p) := fun p x hx => by
    rw [hheld p] at hx
    exact hx
  exact ⟨fun x => .inr (hsem x), fun p x hx => absurd hx (hnot p x),
    fun p _ x hx _ => absurd hx (hnot p x)⟩

variable [DecidableEq P]

/-- Who holds what after `p` has moved. -/
theorem mem_update {q : P} (h : x ∈ held q (Function.update pcs p pc q)) :
    (q = p ∧ x ∈ held p pc) ∨ (q ≠ p ∧ x ∈ held q (pcs q)) := by
  by_cases hq : q = p
  · subst hq
    rw [Function.update_self] at h
    exact .inl ⟨rfl, h⟩
  · rw [Function.update_of_ne hq] at h
    exact .inr ⟨hq, h⟩

/-- With less in the hands of `p`, and the semaphores as before. -/
theorem shrink (h : Locks held pcs sem) (hsub : held p pc ⊆ held p (pcs p)) :
    Locks held (Function.update pcs p pc) sem := by
  have hmem : ∀ q x, x ∈ held q (Function.update pcs p pc q) → x ∈ held q (pcs q) := by
    intro q x hx
    rcases mem_update hx with ⟨rfl, hx⟩ | ⟨-, hx⟩
    · exact hsub hx
    · exact hx
  exact ⟨h.binary, fun q x hx => h.busy q x (hmem q x hx),
    fun q r x hq hr => h.alone q r x (hmem q x hq) (hmem r x hr)⟩

variable [DecidableEq X]

theorem acquire (h : Locks held pcs sem) (hfree : 0 < sem x)
    (hheld : held p pc = insert x (held p (pcs p))) :
    Locks held (Function.update pcs p pc) (Function.update sem x (sem x - 1)) := by
  have hone : sem x = 1 := by
    rcases h.binary x with h0 | h1
    · exact absurd hfree (by rw [h0]; exact lt_irrefl 0)
    · exact h1
  -- a free semaphore is in nobody's hands
  have hnobody : ∀ q, x ∉ held q (pcs q) := by
    intro q hq
    rw [h.busy q x hq] at hfree
    exact lt_irrefl 0 hfree
  have hmem : ∀ q y, y ∈ held q (Function.update pcs p pc q) →
      (q = p ∧ y = x) ∨ (y ≠ x ∧ y ∈ held q (pcs q)) := by
    intro q y hy
    rcases mem_update hy with ⟨rfl, hy⟩ | ⟨-, hy⟩
    · rw [hheld] at hy
      rcases hy with rfl | hy
      · exact .inl ⟨rfl, rfl⟩
      · exact .inr ⟨fun e => hnobody q (e ▸ hy), hy⟩
    · exact .inr ⟨fun e => hnobody q (e ▸ hy), hy⟩
  refine ⟨fun y => ?_, fun q y hy => ?_, fun q r y hq hr => ?_⟩
  · by_cases hy : y = x
    · subst hy
      rw [Function.update_self, hone]
      exact .inl rfl
    · rw [Function.update_of_ne hy]
      exact h.binary y
  · rcases hmem q y hy with ⟨-, rfl⟩ | ⟨hne, hy⟩
    · rw [Function.update_self, hone]
      rfl
    · rw [Function.update_of_ne hne]
      exact h.busy q y hy
  · rcases hmem q y hq with ⟨rfl, rfl⟩ | ⟨hne, hq⟩
    · rcases hmem r y hr with ⟨rfl, -⟩ | ⟨hne, -⟩
      · rfl
      · exact absurd rfl hne
    · rcases hmem r y hr with ⟨-, rfl⟩ | ⟨-, hr⟩
      · exact absurd rfl hne
      · exact h.alone q r y hq hr

theorem release (h : Locks held pcs sem) (hx : x ∈ held p (pcs p))
    (hheld : held p pc = held p (pcs p) \ {x}) :
    Locks held (Function.update pcs p pc) (Function.update sem x (sem x + 1)) := by
  have hsmall := h.shrink (p := p) (hheld ▸ Set.sdiff_subset)
  -- after the step nobody holds `x`
  have hnobody : ∀ q, x ∉ held q (Function.update pcs p pc q) := by
    intro q hq
    rcases mem_update hq with ⟨rfl, hq⟩ | ⟨hne, hq⟩
    · rw [hheld] at hq
      exact hq.2 rfl
    · exact hne (h.alone q p x hq hx)
  refine ⟨fun y => ?_, fun q y hy => ?_, hsmall.alone⟩
  · by_cases hy : y = x
    · subst hy
      rw [Function.update_self, h.busy p y hx]
      exact .inr rfl
    · rw [Function.update_of_ne hy]
      exact h.binary y
  · have hne : y ≠ x := fun e => hnobody q (e ▸ hy)
    rw [Function.update_of_ne hne]
    exact hsmall.busy q y hy

/-- **A step of a disciplined program keeps the locks.** -/
theorem step {op : SemOp X} (h : Locks held pcs sem)
    (hmoves : op.Moves (held p (pcs p)) (held p pc)) (hop : op.apply sem = some sem') :
    Locks held (Function.update pcs p pc) sem' := by
  cases op with
  | skip =>
    cases hop
    exact h.shrink (le_of_eq hmoves)
  | wait x =>
    rw [SemOp.apply] at hop
    split at hop
    · rename_i hfree
      cases hop
      exact h.acquire hfree hmoves
    · cases hop
  | post x =>
    cases hop
    exact h.release hmoves.1 hmoves.2
  | leave x =>
    cases hop
    exact h.shrink (hmoves.2 ▸ Set.sdiff_subset)

end Locks

/-- Every semaphore that is taken is in the hands of a process. -/
def Owned (held : (p : P) → Pc p → Set X) (pcs : (p : P) → Pc p) (sem : X → Int) : Prop :=
  ∀ x, sem x = 0 → ∃ p, x ∈ held p (pcs p)

theorem Owned.step [DecidableEq P] [DecidableEq X] {held : (p : P) → Pc p → Set X}
    {pcs : (p : P) → Pc p} {sem sem' : X → Int} {p : P} {pc : Pc p} {op : SemOp X}
    (h : Owned held pcs sem) (hlocks : Locks held pcs sem)
    (hkeeps : op.Keeps (held p (pcs p)) (held p pc)) (hop : op.apply sem = some sem') :
    Owned held (Function.update pcs p pc) sem' := by
  obtain ⟨hmoves, hnoleave⟩ := hkeeps
  -- what a process held and `p` has not given up is still held
  have hstill : ∀ q y, y ∈ held q (pcs q) → (q = p → y ∈ held p pc) →
      ∃ r, y ∈ held r (Function.update pcs p pc r) := by
    intro q y hy hp
    by_cases hq : q = p
    · refine ⟨p, ?_⟩
      rw [Function.update_self]
      exact hp hq
    · refine ⟨q, ?_⟩
      rw [Function.update_of_ne hq]
      exact hy
  cases op with
  | skip =>
    cases hop
    intro y hy
    obtain ⟨q, hq⟩ := h y hy
    refine hstill q y hq fun hqp => ?_
    subst hqp
    rw [show held q pc = held q (pcs q) from hmoves]
    exact hq
  | wait x =>
    rw [SemOp.apply] at hop
    split at hop
    · cases hop
      intro y hy
      have hheld : held p pc = insert x (held p (pcs p)) := hmoves
      by_cases hyx : y = x
      · subst hyx
        refine ⟨p, ?_⟩
        rw [Function.update_self, hheld]
        exact Set.mem_insert y _
      · rw [Function.update_of_ne hyx] at hy
        obtain ⟨q, hq⟩ := h y hy
        refine hstill q y hq fun hqp => ?_
        subst hqp
        rw [hheld]
        exact Set.mem_insert_of_mem x hq
    · cases hop
  | post x =>
    cases hop
    intro y hy
    have hyx : y ≠ x := by
      intro e
      subst e
      rw [Function.update_self, hlocks.busy p y hmoves.1] at hy
      exact absurd hy (by decide)
    rw [Function.update_of_ne hyx] at hy
    obtain ⟨q, hq⟩ := h y hy
    refine hstill q y hq fun hqp => ?_
    subst hqp
    rw [hmoves.2]
    exact ⟨hq, hyx⟩
  | leave x => exact absurd rfl (hnoleave x)

/-! ## 4. Assertions -/

/-- The locks, an invariant of the memory, and what each process knows at its place. -/
structure Sound (held : (p : P) → Pc p → Set X) (G : M → Prop) (A : (p : P) → Pc p → M → Prop)
    (s : Sys P Pc M X) : Prop where
  locks : Locks held s.pc s.sem
  mem : G s.mem
  knows : ∀ p, A p (s.pc p) s.mem

theorem Sound.step [DecidableEq P] [DecidableEq X] {next : Program P Pc M X E}
    {held : (p : P) → Pc p → Set X} {G : M → Prop} {A : (p : P) → Pc p → M → Prop}
    {s s' : Sys P Pc M X} {p : P} {e : E}
    (h : Sound held G A s) (disciplined : Disciplined next held)
    (own : ∀ pc m op, next p (s.pc p) s.mem e = some (pc, m, op) → G m ∧ A p pc m)
    (others : ∀ q pc m op, q ≠ p → next p (s.pc p) s.mem e = some (pc, m, op) →
      (∀ x ∈ held p (s.pc p), x ∉ held q (s.pc q)) → A q (s.pc q) s.mem → A q (s.pc q) m)
    (hstep : Sys.step next s (p, e) = some s') : Sound held G A s' := by
  obtain ⟨pc, m, op, sem, hnext, hop, rfl⟩ := Sys.step_cases hstep
  refine ⟨h.locks.step (disciplined _ _ _ _ _ _ _ hnext) hop, (own pc m op hnext).1, fun q => ?_⟩
  by_cases hq : q = p
  · subst hq
    show A q (Function.update s.pc q pc q) m
    rw [Function.update_self]
    exact (own pc m op hnext).2
  · show A q (Function.update s.pc p pc q) m
    rw [Function.update_of_ne hq]
    exact others q pc m op hq hnext (h.locks.apart hq) (h.knows q)

/-! ## 5. Balances -/

section Balance

variable [Fintype P] [DecidableEq P]

/-- The quantity `q` of the memory is `total`, and what the processes have in hand. -/
def Balanced (q : M → Int) (inHand : (p : P) → Pc p → Int) (total : Int) (s : Sys P Pc M X) :
    Prop :=
  q s.mem = total + ∑ p, inHand p (s.pc p)

theorem sum_update (inHand : (p : P) → Pc p → Int) (pcs : (p : P) → Pc p) (p : P) (pc : Pc p) :
    ∑ q, inHand q (Function.update pcs p pc q) =
      ∑ q, inHand q (pcs q) + (inHand p pc - inHand p (pcs p)) := by
  rw [← Finset.add_sum_erase _ _ (Finset.mem_univ p),
    ← Finset.add_sum_erase Finset.univ (fun q => inHand q (pcs q)) (Finset.mem_univ p),
    Function.update_self]
  have hrest : ∑ q ∈ Finset.univ.erase p, inHand q (Function.update pcs p pc q) =
      ∑ q ∈ Finset.univ.erase p, inHand q (pcs q) := by
    refine Finset.sum_congr rfl fun q hq => ?_
    rw [Function.update_of_ne (Finset.ne_of_mem_erase hq)]
  rw [hrest]
  ring

theorem Balanced.step [DecidableEq X] {next : Program P Pc M X E} {q : M → Int}
    {inHand : (p : P) → Pc p → Int} {total : Int} {s s' : Sys P Pc M X} {p : P} {e : E}
    (h : Balanced q inHand total s)
    (own : ∀ pc m op, next p (s.pc p) s.mem e = some (pc, m, op) →
      q m - q s.mem = inHand p pc - inHand p (s.pc p))
    (hstep : Sys.step next s (p, e) = some s') : Balanced q inHand total s' := by
  obtain ⟨pc, m, op, sem, hnext, -, rfl⟩ := Sys.step_cases hstep
  show q m = total + ∑ r, inHand r (Function.update s.pc p pc r)
  have hbefore : q s.mem = total + ∑ r, inHand r (s.pc r) := h
  have hmove := own pc m op hnext
  rw [sum_update]
  linarith

end Balance

end Lib
end Labs
