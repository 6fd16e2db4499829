import Labs.Lib.Processes
import Mathlib.Algebra.Order.BigOperators.Group.Finset
import Mathlib.Logic.ExistsUnique

/-!
# Locks that are always given back

When every process gives back what it takes, a semaphore is at zero just as long as one process has
it (`Locked`). Some of what the world decides may be ruled out for that, as that a call fails; the
`ok` of this module says what is left. Two rules rest on it:

* `Guarded`: what a semaphore protects is in order while it is free, so a process that acquires it
  finds that, and has to leave it so. In between the process that has it says what it has made of
  it.
* `Locked.progress`: when the semaphores have a rank, and a process asks only for one above those
  that it has, the system does not get stuck. Whoever waits, waits for a process that waits for
  a higher one, if it waits at all.

That a step is possible in every state is not yet that something happens at last. A run that gets
there is one whose steps each bring a measure down (`exists_reaches_of_measure`).
-/

namespace Labs
namespace Lib

variable {P : Type} {Pc : P → Type} {M X E : Type} {held : (p : P) → Pc p → Set X}
  {next : Program P Pc M X E} {ok : (p : P) → Pc p → E → Prop}

/-- With the choices that are `ok`, what is given up is released. -/
def KeepsWhen (next : Program P Pc M X E) (held : (p : P) → Pc p → Set X)
    (ok : (p : P) → Pc p → E → Prop) : Prop :=
  ∀ p pc m e pc' m' op, ok p pc e → next p pc m e = some (pc', m', op) →
    op.Keeps (held p pc) (held p pc')

/-- A process that waits for a semaphore has none. -/
def OneAtATime (next : Program P Pc M X E) (held : (p : P) → Pc p → Set X) : Prop :=
  ∀ p pc m e pc' m' x, next p pc m e = some (pc', m', .wait x) → held p pc = ∅

/-- A process that waits for a semaphore has only lower ones. -/
def Ordered (next : Program P Pc M X E) (held : (p : P) → Pc p → Set X) (rank : X → Nat) : Prop :=
  ∀ p pc m e pc' m' x, next p pc m e = some (pc', m', .wait x) →
    ∀ y ∈ held p pc, rank y < rank x

theorem OneAtATime.ordered (h : OneAtATime next held) : Ordered next held fun _ => 0 := by
  intro p pc m e pc' m' x hnext y hy
  rw [h p pc m e pc' m' x hnext] at hy
  exact absurd hy (Set.notMem_empty y)

/-! ## One mutex -/

section Mutex

variable {inside : (p : P) → Pc p → Prop} {p : P} {pc pc' : Pc p} {op : SemOp Unit}

/-- A process holds the one semaphore there is while it is inside. -/
def heldInside (inside : (p : P) → Pc p → Prop) (p : P) (pc : Pc p) : Set Unit := { _x | inside p pc }

theorem heldInside_of_inside (h : inside p pc) : heldInside inside p pc = {()} := by
  ext x
  simp [heldInside, h]

theorem heldInside_of_outside (h : ¬ inside p pc) : heldInside inside p pc = ∅ := by
  ext x
  simp [heldInside, h]

/-- What a step does to the mutex, by where it leads from and to. -/
def Passes (inside : (p : P) → Pc p → Prop) (p : P) (pc pc' : Pc p) (op : SemOp Unit) : Prop :=
  (op = .skip ∧ (inside p pc ↔ inside p pc')) ∨ (op = .wait () ∧ ¬ inside p pc ∧ inside p pc') ∨
    (op = .post () ∧ inside p pc ∧ ¬ inside p pc')

theorem Passes.keeps (h : Passes inside p pc pc' op) :
    op.Keeps (heldInside inside p pc) (heldInside inside p pc') := by
  rcases h with ⟨rfl, hsame⟩ | ⟨rfl, hout, hin⟩ | ⟨rfl, hin, hout⟩
  · have hheld : heldInside inside p pc' = heldInside inside p pc := by
      ext x
      exact hsame.symm
    rw [hheld]
    exact SemOp.keeps_skip _
  · rw [heldInside_of_outside hout, heldInside_of_inside hin]
    exact SemOp.keeps_wait ()
  · rw [heldInside_of_inside hin, heldInside_of_outside hout]
    exact SemOp.keeps_post ()

/-- Inside nobody asks for the mutex. -/
theorem Passes.outside (h : Passes inside p pc pc' (.wait ())) : ¬ inside p pc := by
  rcases h with ⟨hskip, -⟩ | ⟨-, hout, -⟩ | ⟨hpost, -⟩
  · cases hskip
  · exact hout
  · cases hpost

theorem oneAtATime_of_passes {next : Program P Pc M Unit E}
    (h : ∀ p pc m e pc' m' op, next p pc m e = some (pc', m', op) → Passes inside p pc pc' op) :
    OneAtATime next (heldInside inside) :=
  fun p pc m e pc' m' x hnext => heldInside_of_outside (h p pc m e pc' m' (.wait x) hnext).outside

end Mutex

/-- Every semaphore is free, or in the hands of one process. -/
structure Locked (held : (p : P) → Pc p → Set X) (s : Sys P Pc M X) : Prop where
  locks : Locks held s.pc s.sem
  owned : Owned held s.pc s.sem

namespace Locked

variable {s s' : Sys P Pc M X}

/-- With all semaphores at one and nothing held. -/
theorem initial (hheld : ∀ p, held p (s.pc p) = ∅) (hsem : ∀ x, s.sem x = 1) :
    Locked held s := by
  refine ⟨.initial hheld hsem, fun x hx => ?_⟩
  rw [hsem x] at hx
  exact absurd hx Int.one_ne_zero

theorem zero_iff (h : Locked held s) (x : X) :
    s.sem x = 0 ↔ ∃! p, x ∈ held p (s.pc p) := by
  constructor
  · intro hx
    obtain ⟨p, hp⟩ := h.owned x hx
    exact ⟨p, hp, fun q hq => h.locks.alone q p x hq hp⟩
  · rintro ⟨p, hp, -⟩
    exact h.locks.busy p x hp

variable [DecidableEq P] [DecidableEq X]

theorem step {p : P} {e : E} (h : Locked held s) (hkeeps : KeepsWhen next held ok)
    (hok : ok p (s.pc p) e) (hstep : Sys.step next s (p, e) = some s') : Locked held s' := by
  obtain ⟨pc, m, op, sem, hnext, hop, rfl⟩ := Sys.step_cases hstep
  have hk := hkeeps _ _ _ _ _ _ _ hok hnext
  exact ⟨h.locks.step hk.1 hop, h.owned.step h.locks hk hop⟩

/-- **Whoever waits, waits for a process that gets on in the end.** The processes in the middle of
    their work are the `busy` ones. -/
theorem progress {busy : P → Prop} {rank : X → Nat} {top : Nat} (h : Locked held s)
    (hord : Ordered next held rank) (htop : ∀ x, rank x ≤ top)
    (hmoves : ∀ p, busy p → ∃ e r, ok p (s.pc p) e ∧ next p (s.pc p) s.mem e = some r)
    (hbusy : ∀ p x, x ∈ held p (s.pc p) → busy p) {p : P} (hp : busy p) :
    ∃ q e s', busy q ∧ ok q (s.pc q) e ∧ Sys.step next s (q, e) = some s' := by
  -- by induction on how many ranks are above all that `p` has in its hands
  have hfrom : ∀ n p, busy p → (∀ e r x, ok p (s.pc p) e → next p (s.pc p) s.mem e = some r →
      r.2.2 = .wait x → top < rank x + n) →
      ∃ q e s', busy q ∧ ok q (s.pc q) e ∧ Sys.step next s (q, e) = some s' := by
    intro n
    induction n with
    | zero =>
      intro p hp hlow
      obtain ⟨e, r, hok, hnext⟩ := hmoves p hp
      have hfree : ∀ x, r.2.2 = .wait x → 0 < s.sem x := by
        intro x hx
        exact absurd (htop x) (not_le.mpr (hlow e r x hok hnext hx))
      obtain ⟨s', hs'⟩ := Option.isSome_iff_exists.mp (Sys.step_isSome hnext hfree)
      exact ⟨p, e, s', hp, hok, hs'⟩
    | succ n ih =>
      intro p hp hlow
      obtain ⟨e, ⟨pc, m, op⟩, hok, hnext⟩ := hmoves p hp
      by_cases hfree : ∀ x, op = .wait x → 0 < s.sem x
      · obtain ⟨s', hs'⟩ := Option.isSome_iff_exists.mp (Sys.step_isSome hnext hfree)
        exact ⟨p, e, s', hp, hok, hs'⟩
      · push Not at hfree
        obtain ⟨x, hx, hbusyx⟩ := hfree
        have hzero : s.sem x = 0 := by
          rcases h.locks.binary x with h0 | h1
          · exact h0
          · rw [h1] at hbusyx
            exact absurd hbusyx (by simp)
        obtain ⟨q, hq⟩ := h.owned x hzero
        refine ih q (hbusy q x hq) fun e' r' y _ hnext' hy => ?_
        -- `q` waits for something above `x`, if it waits
        obtain ⟨pc', m', op'⟩ := r'
        change op' = .wait y at hy
        subst hy
        have habove := hord q _ _ _ _ _ y hnext' x hq
        have hx := hlow e _ x hok hnext hx
        omega
  exact hfrom (top + 1) p hp fun _ _ x _ _ _ => by omega

end Locked

/-! ## Guarded memory -/

/-- What each semaphore protects while it is free, and what each process knows at its place. -/
structure Guarded (held : (p : P) → Pc p → Set X) (I : X → M → Prop)
    (A : (p : P) → Pc p → M → Prop) (s : Sys P Pc M X) : Prop where
  locked : Locked held s
  free : ∀ x, 0 < s.sem x → I x s.mem
  knows : ∀ p, A p (s.pc p) s.mem

theorem Guarded.step [DecidableEq P] [DecidableEq X] {I : X → M → Prop}
    {A : (p : P) → Pc p → M → Prop} {s s' : Sys P Pc M X} {p : P} {e : E}
    (h : Guarded held I A s) (hkeeps : KeepsWhen next held ok) (hok : ok p (s.pc p) e)
    (own : ∀ pc m op, next p (s.pc p) s.mem e = some (pc, m, op) →
      (∀ x, op = .wait x → I x s.mem) → A p pc m ∧ ∀ x, op = .post x → I x m)
    (rest : ∀ x pc m op, next p (s.pc p) s.mem e = some (pc, m, op) →
      x ∉ held p (s.pc p) → I x s.mem → I x m)
    (others : ∀ q pc m op, q ≠ p → next p (s.pc p) s.mem e = some (pc, m, op) →
      (∀ x ∈ held p (s.pc p), x ∉ held q (s.pc q)) → A q (s.pc q) s.mem → A q (s.pc q) m)
    (hstep : Sys.step next s (p, e) = some s') : Guarded held I A s' := by
  have hlocked := h.locked.step hkeeps hok hstep
  obtain ⟨pc, m, op, sem, hnext, hop, rfl⟩ := Sys.step_cases hstep
  have hacquired : ∀ x, op = .wait x → I x s.mem := by
    intro x hx
    subst hx
    rw [SemOp.apply] at hop
    split at hop
    · rename_i hfree
      exact h.free x hfree
    · cases hop
  obtain ⟨hown, hreleased⟩ := own pc m op hnext hacquired
  have hrest : ∀ x, 0 < s.sem x → I x m := by
    intro x hx
    refine rest x pc m op hnext (fun hheld => ?_) (h.free x hx)
    rw [h.locked.locks.busy p x hheld] at hx
    exact lt_irrefl 0 hx
  refine ⟨hlocked, fun x hx => ?_, fun q => ?_⟩
  · change 0 < sem x at hx
    show I x m
    cases op with
    | skip =>
      cases hop
      exact hrest x hx
    | wait y =>
      rw [SemOp.apply] at hop
      split at hop
      · cases hop
        by_cases hxy : x = y
        · -- it has just been acquired
          subst hxy
          rcases h.locked.locks.binary x with h0 | h1
          · rw [Function.update_self, h0] at hx
            exact absurd hx (by simp)
          · rw [Function.update_self, h1] at hx
            exact absurd hx (by simp)
        · rw [Function.update_of_ne hxy] at hx
          exact hrest x hx
      · cases hop
    | post y =>
      cases hop
      by_cases hxy : x = y
      · subst hxy
        exact hreleased x rfl
      · rw [Function.update_of_ne hxy] at hx
        exact hrest x hx
    | leave y => exact absurd rfl ((hkeeps _ _ _ _ _ _ _ hok hnext).2 y)
  · by_cases hq : q = p
    · subst hq
      show A q (Function.update s.pc q pc q) m
      rw [Function.update_self]
      exact hown
    · show A q (Function.update s.pc p pc q) m
      rw [Function.update_of_ne hq]
      exact others q pc m op hq hnext (h.locked.locks.apart hq) (h.knows q)

/-! ## What is still to come -/

/-- When each process contributes no more than `bound`, there is room for what `p` still can. -/
theorem Balanced.room [Fintype P] [DecidableEq P] {q : M → Int} {inHand : (p : P) → Pc p → Int}
    {s : Sys P Pc M X} {bound : Int} (h : Balanced q inHand 0 s)
    (hle : ∀ p, inHand p (s.pc p) ≤ bound) (p : P) :
    q s.mem + (bound - inHand p (s.pc p)) ≤ Fintype.card P * bound := by
  have hq : q s.mem = 0 + ∑ r, inHand r (s.pc r) := h
  have hsum : ∑ r, (bound - inHand r (s.pc r)) =
      Fintype.card P * bound - ∑ r, inHand r (s.pc r) := by
    rw [Finset.sum_sub_distrib, Finset.sum_const, Finset.card_univ, nsmul_eq_mul]
  have hone : bound - inHand p (s.pc p) ≤ ∑ r, (bound - inHand r (s.pc r)) :=
    Finset.single_le_sum (f := fun r => bound - inHand r (s.pc r))
      (fun r _ => Int.sub_nonneg_of_le (hle r)) (Finset.mem_univ p)
  omega

/-! ## Runs that get somewhere -/

/-- A measure that is the sum of what is left to each process, after one of them has moved. -/
theorem sum_lt_of_moved {ι : Type} [Fintype ι] {f g : ι → Nat} (k : ι)
    (hothers : ∀ j, j ≠ k → f j = g j) (hless : f k < g k) : ∑ j, f j < ∑ j, g j := by
  refine Finset.sum_lt_sum (fun j _ => ?_) ⟨k, Finset.mem_univ k, hless⟩
  by_cases hj : j = k
  · subst hj
    exact le_of_lt hless
  · exact le_of_eq (hothers j hj)

/-- The sum, when only one of its parts has changed. -/
theorem sum_of_moved {ι : Type} [Fintype ι] {f g : ι → Nat} (k : ι)
    (hothers : ∀ j, j ≠ k → f j = g j) : ∑ j, f j + g k = ∑ j, g j + f k := by
  classical
  rw [← Finset.add_sum_erase _ f (Finset.mem_univ k),
    ← Finset.add_sum_erase _ g (Finset.mem_univ k)]
  have hrest : ∑ j ∈ Finset.univ.erase k, f j = ∑ j ∈ Finset.univ.erase k, g j :=
    Finset.sum_congr rfl fun j hj => hothers j (Finset.ne_of_mem_erase hj)
  rw [hrest]
  ring

/-- A run is no longer than the measure that each of its steps brings down. -/
theorem length_le_of_measure {σ α : Type} {step : σ → α → Option σ} {Inv : σ → Prop}
    (measure : σ → Nat)
    (hstep : ∀ s a s', Inv s → step s a = some s' → Inv s' ∧ measure s' < measure s)
    {as : List α} {s s' : σ} (h : Inv s) (hrun : run step as s = some s') :
    as.length ≤ measure s := by
  induction as generalizing s with
  | nil => exact Nat.zero_le _
  | cons a as ih =>
    obtain ⟨s₁, hs₁, hrest⟩ := Option.bind_eq_some_iff.mp hrun
    obtain ⟨hinv, hless⟩ := hstep s a s₁ h hs₁
    exact Nat.lt_of_le_of_lt (ih hinv hrest) hless

/-- Some steps may put up to `cost` back on the measure. Then the run is longer by no more than what
    those of its steps cost. -/
theorem length_le_of_costs {σ α : Type} {step : σ → α → Option σ} {Inv : σ → Prop}
    (measure : σ → Nat) (dear : α → Bool) (cost : Nat)
    (hstep : ∀ s a s', Inv s → step s a = some s' →
      Inv s' ∧ measure s' < measure s + if dear a then cost else 0)
    {as : List α} {s s' : σ} (h : Inv s) (hrun : run step as s = some s') :
    as.length ≤ measure s + cost * as.countP dear := by
  induction as generalizing s with
  | nil => exact Nat.zero_le _
  | cons a as ih =>
    obtain ⟨s₁, hs₁, hrest⟩ := Option.bind_eq_some_iff.mp hrun
    obtain ⟨hinv, hless⟩ := hstep s a s₁ h hs₁
    have hlater := ih hinv hrest
    rw [List.countP_cons, List.length_cons, Nat.mul_add]
    split at hless
    · rename_i hdear
      rw [if_pos hdear]
      omega
    · rename_i hcheap
      rw [if_neg hcheap]
      omega

/-- When no run is longer than `bound`, there is one that cannot go on. -/
theorem exists_stuck_of_bounded {σ α : Type} {step : σ → α → Option σ} {s₀ : σ} {bound : Nat}
    (hbound : ∀ as s, run step as s₀ = some s → as.length ≤ bound) :
    ∃ s, Reaches step (fun _ _ => True) s₀ s ∧ ∀ a, step s a = none := by
  by_contra hnone
  push Not at hnone
  -- so there are runs of every length
  have hruns : ∀ n, ∃ as s, run step as s₀ = some s ∧ as.length = n := by
    intro n
    induction n with
    | zero => exact ⟨[], s₀, rfl, rfl⟩
    | succ n ih =>
      obtain ⟨as, s, hrun, hlen⟩ := ih
      obtain ⟨a, ha⟩ := hnone s (reaches_of_run (fun _ _ _ => trivial) .start hrun)
      obtain ⟨s', hs'⟩ := Option.ne_none_iff_exists'.mp ha
      refine ⟨as ++ [a], s', ?_, by simp [hlen]⟩
      rw [run_append, hrun]
      simp [run, hs']
  obtain ⟨as, s, hrun, hlen⟩ := hruns (bound + 1)
  have := hbound as s hrun
  omega

/-- A run to the `goal`, when a step that brings the measure down is possible until then. -/
theorem exists_reaches_of_measure {σ α : Type} {step : σ → α → Option σ}
    {allowed : σ → α → Prop} {Inv goal : σ → Prop} (measure : σ → Nat)
    (hstep : ∀ s, Inv s → ¬ goal s →
      ∃ a s', allowed s a ∧ step s a = some s' ∧ Inv s' ∧ measure s' < measure s) :
    ∀ s, Inv s → ∃ s', Reaches step allowed s s' ∧ Inv s' ∧ goal s' := by
  -- from `s₀`, where the run starts, to a state that is reached, by induction on its measure
  have hfrom : ∀ s₀ n s, measure s = n → Reaches step allowed s₀ s → Inv s →
      ∃ s', Reaches step allowed s₀ s' ∧ Inv s' ∧ goal s' := by
    intro s₀ n
    induction n using Nat.strongRecOn with
    | ind n ih =>
      intro s hn hreach hinv
      by_cases hgoal : goal s
      · exact ⟨s, hreach, hinv, hgoal⟩
      · obtain ⟨a, s', hok, hs', hinv', hless⟩ := hstep s hinv hgoal
        exact ih (measure s') (hn ▸ hless) s' rfl (hreach.next hok hs') hinv'
  intro s hinv
  exact hfrom s (measure s) s rfl .start hinv

end Lib
end Labs
