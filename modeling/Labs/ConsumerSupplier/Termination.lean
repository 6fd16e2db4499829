import Labs.ConsumerSupplier.Family
import Labs.Lib.Progress

/-!
# Who is satisfied

A consumer takes itself off `jobs` when its demand is zero, once, and under the semaphore of
`jobs`. So `jobs` is the number of consumers that have not done so yet (`Inv.balanced`), a supplier
that finds it at zero knows that all demands are (`Inv.told`), and so does the parent when all its
children have ended without having been killed.

The calls of the children succeed here. Those of the parent may fail, and then it kills children
in the middle of what they do.

## The argument

`waiting` is what a child still has to take off `jobs`: one for a consumer, until it has. The sum of
it over the children is `jobs` (`Balanced`), an equation that every step keeps, because a step
changes one summand and `jobs` by the same amount.

The equation is about numbers; what is drawn from it is about demands. A consumer that has been
through `jobs` has found its demand at zero (`Satisfied`), and no step brings a demand up
(`child_dem_le`), so it still is. With `jobs` at zero there is no summand left, and all demands are
zero (`all_satisfied`). A supplier reads `jobs` under the semaphore, and may leave its loop long
afterwards. That is why `told` is a part of the invariant and not a consequence of the sum: it is
about the moment of the reading, and lasts because demands do not grow.

The parent does not read `jobs`; it has waited for its children. But a child that has ended may have
been killed, and a consumer that was killed need not be satisfied. So `ChildrenEnded` carries that
nobody has been killed, and `ParentKnows` says it only of places that are reached without a failure.

## What is not assumed

Nothing is assumed of the order of the steps, and nothing of the calls of the parent. The number of
consumers has to be an `int`, since `jobs` is one.
-/

namespace Labs
namespace ConsumerSupplier

open Lib

variable {c : Config} {m m' : Shared c} {op : SemOp Sem}

/-! ## 1. What a child can do -/

def kidHeld : (p : Proc c) → Kid c p → Set Sem
  | p, ⟨pc, true⟩ => held p pc
  | _, ⟨_, false⟩ => ∅

theorem child_cases {p : Proc c} {k k' : Kid c p} {e : Option (Event c)}
    (h : child c p k m e = some (k', m', op)) :
    (∃ pc pc' e', k = ⟨pc, true⟩ ∧ e = some e' ∧ k' = ⟨pc', true⟩ ∧
      program c p pc m e' = some (pc', m', op)) ∨
    (∃ pc, k = ⟨pc, true⟩ ∧ e = none ∧ k' = ⟨pc, false⟩ ∧ m' = m ∧ op = killOp p pc) := by
  obtain ⟨pc, alive⟩ := k
  cases alive with
  | false => cases e <;> cases h
  | true =>
    cases e with
    | none =>
      cases h
      exact .inr ⟨pc, rfl, rfl, rfl, rfl, rfl⟩
    | some e =>
      obtain ⟨⟨pc', m₁, op₁⟩, hnext, hr⟩ := Option.map_eq_some_iff.mp h
      cases hr
      exact .inl ⟨pc, pc', e, rfl, rfl, rfl, hnext⟩

theorem held_of_semaphore {p : Proc c} {pc : Place c p} {x : Sem}
    (h : semaphore p pc = some x) : held p pc = {x} := by
  cases p with
  | inl i =>
    change ConsumerPlace c at pc
    cases pc <;> cases h <;> rfl
  | inr j =>
    change SupplierPlace at pc
    cases pc <;> cases h <;> rfl

theorem held_of_no_semaphore {p : Proc c} {pc : Place c p} (h : semaphore p pc = none) :
    held p pc = ∅ := by
  cases p with
  | inl i =>
    change ConsumerPlace c at pc
    cases pc <;> first | rfl | cases h
  | inr j =>
    change SupplierPlace at pc
    cases pc <;> first | rfl | cases h

theorem moves_killOp (p : Proc c) (pc : Place c p) : (killOp p pc).Moves (held p pc) ∅ := by
  unfold killOp
  cases hs : semaphore p pc with
  | none => exact (held_of_no_semaphore hs).symm
  | some x =>
    rw [held_of_semaphore hs]
    exact moves_undo c x

theorem child_disciplined (c : Config) : Disciplined (child c) kidHeld := by
  intro p k m e k' m' op h
  rcases child_cases h with ⟨pc, pc', e', rfl, -, rfl, hnext⟩ | ⟨pc, rfl, -, rfl, -, rfl⟩
  · exact program_disciplined c _ _ _ _ _ _ _ hnext
  · exact moves_killOp p pc

/-! ## 2. What a consumer knows -/

/-- The demand has been found to be zero. -/
def ConsumerPlace.Satisfied : ConsumerPlace c → Prop
  | .unlock _ true | .jobsLock | .loadJobs | .storeJobs _ | .jobsUnlock | .exited => True
  | _ => False

/-- What the registers have to do with the segment. -/
def ConsumerPlace.Registers (i : Fin c.consNum) : ConsumerPlace c → Shared c → Prop
  | .readDem j, m => 0 < m.supUnit j
  | .readSup j dem, m => dem = m.demUnit i ∧ 0 < m.supUnit j
  | .readTake j less, m => less = decide (m.demUnit i < m.supUnit j) ∧ 0 < m.supUnit j
  | .loadDem _ take, m => 0 ≤ take ∧ take ≤ m.demUnit i
  | .storeDem _ take dem, m => 0 ≤ take ∧ take ≤ dem ∧ dem = m.demUnit i
  | .storeJobs jobs, m => jobs = m.jobs
  | _, _ => True

def KidKnows : (p : Proc c) → Kid c p → Shared c → Prop
  | .inl i, k, m => (k.alive = true → ConsumerPlace.Registers i k.place m) ∧
      (ConsumerPlace.Satisfied k.place → m.demUnit i = 0)
  | .inr _, _, _ => True

/-- No demand is negative, and none grows. -/
def DemInBounds (m : Shared c) : Prop := ∀ i, 0 ≤ m.demUnit i ∧ m.demUnit i ≤ c.demandUnit

theorem DemInBounds.setDem {i : Fin c.consNum} {x : Int} (h : DemInBounds m)
    (hx : 0 ≤ x ∧ x ≤ c.demandUnit) : DemInBounds (m.setDem i x) := by
  intro i'
  show 0 ≤ Function.update m.demUnit i x i' ∧ Function.update m.demUnit i x i' ≤ c.demandUnit
  by_cases hi : i' = i
  · subst hi
    rw [Function.update_self]
    exact hx
  · rw [Function.update_of_ne hi]
    exact h i'

/-- **A step of a consumer.** -/
theorem consume_registers {i : Fin c.consNum} {pc pc' : ConsumerPlace c} {e : Event c}
    (hm : DemInBounds m) (hr : pc.Registers i m) (hs : pc.Satisfied → m.demUnit i = 0)
    (hok : e = .fail → pc = .jobsUnlock) (h : consume c i pc m e = some (pc', m', op)) :
    DemInBounds m' ∧ pc'.Registers i m' ∧ (pc'.Satisfied → m'.demUnit i = 0) := by
  cases pc with
  | testSup j =>
    cases e <;> cases h
    split
    · exact ⟨hm, trivial, False.elim⟩
    · rename_i hsup
      exact ⟨hm, not_le.mp hsup, False.elim⟩
  | readDem j =>
    cases e <;> cases h
    exact ⟨hm, ⟨rfl, hr⟩, False.elim⟩
  | readSup j dem =>
    cases e <;> cases h
    obtain ⟨rfl, hsup⟩ := hr
    exact ⟨hm, ⟨rfl, hsup⟩, False.elim⟩
  | readTake j less =>
    cases e <;> cases h
    obtain ⟨rfl, hsup⟩ := hr
    have htake := take_le (hm i).1 (le_of_lt hsup)
    exact ⟨hm, ⟨htake.1, htake.2.1⟩, False.elim⟩
  | loadDem j take =>
    cases e <;> cases h
    exact ⟨hm, ⟨hr.1, hr.2, rfl⟩, False.elim⟩
  | storeDem j take dem =>
    cases e <;> cases h
    obtain ⟨h0, hdem, rfl⟩ := hr
    have hmax : m.demUnit i ≤ c.demandUnit := (hm i).2
    rw [wrap32_sub h0 hdem (le_trans hmax c.demandOk.2)]
    exact ⟨hm.setDem ⟨sub_nonneg.mpr hdem, le_trans (sub_le_self _ h0) hmax⟩, trivial,
      False.elim⟩
  | testDem j =>
    cases e <;> cases h
    refine ⟨hm, trivial, fun hsat => ?_⟩
    -- the demand is not positive, and it is not negative either
    by_cases hdem : m.demUnit i ≤ 0
    · exact le_antisymm hdem (hm i).1
    · rw [decide_eq_false hdem] at hsat
      exact hsat.elim
  | unlock j satisfied =>
    cases e with
    | pick j => cases h
    | ok =>
      cases h
      cases satisfied with
      | true => exact ⟨hm, trivial, fun _ => hs trivial⟩
      | false => exact ⟨hm, trivial, False.elim⟩
    | fail => cases hok rfl
  | loadJobs =>
    cases e <;> cases h
    exact ⟨hm, rfl, fun _ => hs trivial⟩
  | storeJobs jobs =>
    cases e <;> cases h
    exact ⟨hm, trivial, fun _ => hs trivial⟩
  | jobsLock =>
    cases e with
    | pick j => cases h
    | ok =>
      cases h
      exact ⟨hm, trivial, fun _ => hs trivial⟩
    | fail => cases hok rfl
  | jobsUnlock =>
    cases e <;> cases h <;> exact ⟨hm, trivial, fun _ => hs trivial⟩
  | _ => cases e <;> first | cases hok rfl | (cases h <;> exact ⟨hm, trivial, False.elim⟩)

/-- Nobody writes `jobs` without its semaphore. -/
theorem program_jobs {p : Proc c} {pc pc' : Place c p} {e : Event c}
    (h : program c p pc m e = some (pc', m', op)) (hjobs : Sem.jobs ∉ held p pc) :
    m'.jobs = m.jobs := by
  cases p with
  | inl i =>
    change ConsumerPlace c at pc
    cases pc with
    | storeJobs jobs => exact absurd rfl hjobs
    | _ => cases e <;> cases h <;> rfl
  | inr j =>
    change SupplierPlace at pc
    cases pc <;> cases e <;> cases h <;> rfl

theorem ConsumerPlace.Registers.stable {i : Fin c.consNum} {pc : ConsumerPlace c}
    (hr : pc.Registers i m) (hdem : m'.demUnit i = m.demUnit i)
    (hsup : ∀ j, c.stockSem j ∈ pc.held → m'.supUnit j = m.supUnit j)
    (hjobs : Sem.jobs ∈ pc.held → m'.jobs = m.jobs) : pc.Registers i m' := by
  cases pc with
  | readDem j =>
    show 0 < m'.supUnit j
    rw [hsup j rfl]
    exact hr
  | readSup j dem =>
    show dem = m'.demUnit i ∧ 0 < m'.supUnit j
    rw [hdem, hsup j rfl]
    exact hr
  | readTake j less =>
    show less = decide (m'.demUnit i < m'.supUnit j) ∧ 0 < m'.supUnit j
    rw [hdem, hsup j rfl]
    exact hr
  | loadDem j take =>
    show 0 ≤ take ∧ take ≤ m'.demUnit i
    rw [hdem]
    exact hr
  | storeDem j take dem =>
    show 0 ≤ take ∧ take ≤ dem ∧ dem = m'.demUnit i
    rw [hdem]
    exact hr
  | storeJobs jobs =>
    show jobs = m'.jobs
    rw [hjobs rfl]
    exact hr
  | _ => trivial

/-- The step of another process leaves the demand of a consumer as it is. -/
theorem program_dem {p : Proc c} {pc pc' : Place c p} {e : Event c} {i : Fin c.consNum}
    (h : program c p pc m e = some (pc', m', op)) (hne : .inl i ≠ p) :
    m'.demUnit i = m.demUnit i := by
  cases p with
  | inl i' => exact (consume_untouched h).1 i fun hi => hne (congrArg Sum.inl hi)
  | inr j => exact congrFun (supply_untouched h).1 i

theorem program_untouched {p : Proc c} {pc pc' : Place c p} {e : Event c}
    (h : program c p pc m e = some (pc', m', op)) : Untouched (held p pc) m m' := by
  cases p with
  | inl i => exact (consume_untouched h).2
  | inr j => exact (supply_untouched h).2

/-- **Another child**, with none of the same semaphores, leaves the knowledge as it is. -/
theorem kidKnows_stable {p q : Proc c} {k k' : Kid c p} {at_q : Kid c q}
    {e : Option (Event c)} (hne : q ≠ p) (h : child c p k m e = some (k', m', op))
    (hapart : ∀ x ∈ kidHeld p k, x ∉ kidHeld q at_q) (hk : KidKnows q at_q m) :
    KidKnows q at_q m' := by
  rcases child_cases h with ⟨pc, pc', e', rfl, -, -, hnext⟩ | ⟨pc, rfl, -, -, rfl, -⟩
  · cases q with
    | inr j => trivial
    | inl i =>
      have hdem := program_dem hnext hne
      obtain ⟨pcq, alive⟩ := at_q
      refine ⟨fun halive => ?_, fun hsat => hdem.trans (hk.2 hsat)⟩
      cases halive
      refine (hk.1 rfl).stable hdem (fun j hj => ?_) fun hj => ?_
      · exact (program_untouched hnext).sup j fun hp => hapart _ hp hj
      · exact program_jobs hnext fun hp => hapart _ hp hj
  · exact hk

/-- A call fails only as a consumer releases `jobs`. -/
def FailsAtEnd (p : Proc c) (pc : Place c p) (e : Option (Event c)) : Prop :=
  e = some .fail →
    match p, pc with
    | .inl _, pc => pc = .jobsUnlock
    | .inr _, _ => False

/-- What the moving child knows, and the bounds of the demands. -/
theorem child_knows {p : Proc c} {k k' : Kid c p} {e : Option (Event c)}
    (hm : DemInBounds m) (hk : KidKnows p k m) (hok : FailsAtEnd p k.place e)
    (h : child c p k m e = some (k', m', op)) : DemInBounds m' ∧ KidKnows p k' m' := by
  rcases child_cases h with ⟨pc, pc', e', rfl, rfl, rfl, hnext⟩ | ⟨pc, rfl, -, rfl, rfl, -⟩
  · cases p with
    | inl i =>
      have hstep := consume_registers hm (hk.1 rfl) hk.2 (fun he => hok (congrArg some he)) hnext
      exact ⟨hstep.1, fun _ => hstep.2.1, hstep.2.2⟩
    | inr j =>
      refine ⟨?_, trivial⟩
      intro i
      rw [(supply_untouched hnext).1]
      exact hm i
  · cases p with
    | inl i => exact ⟨hm, nofun, hk.2⟩
    | inr j => exact ⟨hm, trivial⟩

/-! ## 3. The count -/

/-- The consumer has taken itself off `jobs`. -/
def ConsumerPlace.decremented : ConsumerPlace c → Bool
  | .jobsUnlock | .exited => true
  | _ => false

/-- What a child adds to `jobs`. -/
def waiting : (p : Proc c) → Kid c p → Int
  | .inl _, k => if ConsumerPlace.decremented k.place then 0 else 1
  | .inr _, _ => 0

theorem consume_waiting {i : Fin c.consNum} {pc pc' : ConsumerPlace c} {e : Event c}
    (hr : pc.Registers i m) (hjobs : 0 ≤ m.jobs ∧ m.jobs ≤ INT_MAX)
    (hok : e = .fail → pc = .jobsUnlock)
    (h : consume c i pc m e = some (pc', m', op)) :
    m'.jobs - m.jobs = (if pc'.decremented then 0 else 1) - (if pc.decremented then 0 else 1) := by
  cases pc with
  | testSup j =>
    cases e <;> cases h
    split <;> simp [ConsumerPlace.decremented]
  | unlock j satisfied =>
    cases e with
    | pick j => cases h
    | ok =>
      cases h
      cases satisfied <;> simp [ConsumerPlace.decremented]
    | fail => cases hok rfl
  | storeJobs jobs =>
    cases e <;> cases h
    obtain rfl : jobs = m.jobs := hr
    show wrap32 (m.jobs - 1) - m.jobs = 0 - 1
    rw [wrap32_of_inRange ⟨?_, ?_⟩]
    · ring
    · exact le_trans (by decide : INT_MIN ≤ 0 - 1) (sub_le_sub_right hjobs.1 1)
    · exact le_trans (sub_le_self _ zero_le_one) hjobs.2
  | jobsUnlock => cases e <;> cases h <;> simp [ConsumerPlace.decremented]
  | _ =>
    cases e <;> first
      | cases hok rfl
      | (cases h <;> simp [Shared.setDem, Shared.setSup, ConsumerPlace.decremented])

theorem child_waiting {p : Proc c} {k k' : Kid c p} {e : Option (Event c)}
    (hk : KidKnows p k m) (hjobs : 0 ≤ m.jobs ∧ m.jobs ≤ INT_MAX)
    (hok : FailsAtEnd p k.place e)
    (h : child c p k m e = some (k', m', op)) :
    m'.jobs - m.jobs = waiting p k' - waiting p k := by
  rcases child_cases h with ⟨pc, pc', e', rfl, rfl, rfl, hnext⟩ | ⟨pc, rfl, -, rfl, rfl, -⟩
  · cases p with
    | inl i => exact consume_waiting (hk.1 rfl) hjobs (fun he => hok (congrArg some he)) hnext
    | inr j =>
      have hsame : m'.jobs = m.jobs := by
        change SupplierPlace at pc
        cases pc <;> cases e' <;> cases hnext <;> rfl
      rw [hsame]
      simp [waiting]
  · cases p <;> simp [waiting]

/-! ## 4. Every run -/

/-- The supplier has found `jobs` at zero. -/
def SupplierPlace.LeftLoop : SupplierPlace → Prop
  | .jobsUnlock true | .exited => True
  | _ => False

/-- The parent has not failed, and the first `k` children have ended by themselves. -/
def ChildrenEnded (w : World c) (k : Nat) : Prop :=
  (∀ p, (w.kids.pc p).alive = true) ∧ c.procNum ≤ w.forked ∧
    ∀ p : Proc c, index p < k → exited p (w.kids.pc p).place = true

/-- What the parent knows about its children, as long as nothing has failed. -/
def ParentKnows (w : World c) : Prop :=
  match w.parent with
  | .fork k => (∀ p, (w.kids.pc p).alive = true) ∧ w.forked = k
  | .kill k false | .waitpid k false => ChildrenEnded w k
  | .report false | .done true => ChildrenEnded w c.procNum
  | _ => True

/-- The invariant of the runs. -/
structure Family (w : World c) : Prop where
  sound : Sound kidHeld DemInBounds KidKnows w.kids
  balanced : Balanced Shared.jobs waiting 0 w.kids
  told : ∀ j, SupplierPlace.LeftLoop (w.kids.pc (.inr j)).place → ∀ i, w.kids.mem.demUnit i = 0
  parent : ParentKnows w

/-- The calls of the children succeed. -/
def Succeeds : Turn c → Prop
  | .child _ e => e ≠ .fail
  | .parent _ => True

theorem waiting_bounds (p : Proc c) (k : Kid c p) :
    0 ≤ waiting p k ∧ waiting p k ≤ 1 := by
  cases p with
  | inl i =>
    show 0 ≤ (if _ then (0 : Int) else 1) ∧ (if _ then (0 : Int) else 1) ≤ 1
    split <;> simp
  | inr j => simp [waiting]

theorem sum_waiting (s : (p : Proc c) → Kid c p) :
    ∑ p, waiting p (s p) =
      ((Finset.univ.filter fun i : Fin c.consNum =>
        (ConsumerPlace.decremented (s (.inl i)).place) = false).card : Int) := by
  rw [Fintype.sum_sum_type]
  have hsup : ∑ j : Fin c.supNum, waiting (.inr j) (s (.inr j)) = 0 :=
    Finset.sum_eq_zero fun j _ => rfl
  rw [hsup, add_zero, Finset.card_filter]
  push_cast
  refine Finset.sum_congr rfl fun i _ => ?_
  show (if _ then (0 : Int) else 1) = _
  cases ConsumerPlace.decremented (s (.inl i)).place <;> simp

theorem jobs_bounds {s : Sys (Proc c) (Kid c) (Shared c) Sem}
    (hint : (c.consNum : Int) ≤ INT_MAX) (h : Balanced Shared.jobs waiting 0 s) :
    0 ≤ s.mem.jobs ∧ s.mem.jobs ≤ INT_MAX := by
  have hcount : s.mem.jobs = 0 + ∑ p, waiting p (s.pc p) := h
  rw [zero_add, sum_waiting] at hcount
  have hle := Finset.card_filter_le (Finset.univ : Finset (Fin c.consNum))
    fun i => (ConsumerPlace.decremented (s.pc (.inl i)).place) = false
  rw [Finset.card_univ, Fintype.card_fin] at hle
  rw [hcount]
  exact ⟨Int.natCast_nonneg _, le_trans (Int.ofNat_le.mpr hle) hint⟩

/-- With `jobs` at zero everybody is satisfied. -/
theorem all_satisfied {s : Sys (Proc c) (Kid c) (Shared c) Sem}
    (hknows : ∀ p, KidKnows p (s.pc p) s.mem) (h : Balanced Shared.jobs waiting 0 s)
    (hjobs : s.mem.jobs ≤ 0) : ∀ i, s.mem.demUnit i = 0 := by
  intro i
  have hcount : s.mem.jobs = 0 + ∑ p, waiting p (s.pc p) := h
  have hle : waiting (.inl i) (s.pc (.inl i)) ≤ ∑ p, waiting p (s.pc p) :=
    Finset.single_le_sum (fun p _ => (waiting_bounds p _).1) (Finset.mem_univ _)
  have hzero : waiting (.inl i) (s.pc (.inl i)) ≤ 0 := by linarith
  have hdone : ConsumerPlace.decremented (s.pc (.inl i)).place = true := by
    by_contra hnot
    have hone : waiting (.inl i) (s.pc (.inl i)) = 1 := if_neg hnot
    rw [hone] at hzero
    exact absurd hzero (by simp)
  refine (hknows (.inl i)).2 ?_
  generalize hpc : (s.pc (.inl i)).place = pc at hdone
  change ConsumerPlace c at pc
  cases pc with
  | jobsUnlock => trivial
  | exited => trivial
  | _ => cases hdone

theorem consume_dem_le {i : Fin c.consNum} {pc pc' : ConsumerPlace c} {e : Event c}
    (hm : DemInBounds m) (hr : pc.Registers i m) (h : consume c i pc m e = some (pc', m', op)) :
    m'.demUnit i ≤ m.demUnit i := by
  cases pc with
  | storeDem j take dem =>
    cases e <;> cases h
    obtain ⟨h0, hdem, rfl⟩ := hr
    show Function.update m.demUnit i (wrap32 (m.demUnit i - take)) i ≤ m.demUnit i
    rw [Function.update_self, wrap32_sub h0 hdem (le_trans (hm i).2 c.demandOk.2)]
    exact sub_le_self _ h0
  | _ => cases e <;> cases h <;> exact le_refl _

/-- No step brings a demand up. -/
theorem child_dem_le {p : Proc c} {k k' : Kid c p} {e : Option (Event c)}
    (hm : DemInBounds m) (hk : KidKnows p k m) (h : child c p k m e = some (k', m', op)) :
    ∀ i, m'.demUnit i ≤ m.demUnit i := by
  intro i
  rcases child_cases h with ⟨pc, pc', e', rfl, -, -, hnext⟩ | ⟨pc, -, -, -, rfl, -⟩
  · by_cases hp : .inl i = p
    · subst hp
      exact consume_dem_le hm (hk.1 rfl) hnext
    · exact le_of_eq (program_dem hnext hp)
  · exact le_refl _

/-- A supplier leaves its loop when it has found `jobs` at zero. -/
theorem supply_leftLoop {j : Fin c.supNum} {pc pc' : SupplierPlace} {e : Event c}
    (hok : e ≠ .fail) (h : supply c j pc m e = some (pc', m', op)) (hleft : pc'.LeftLoop) :
    pc.LeftLoop ∨ (m.jobs ≤ 0 ∧ m' = m) := by
  cases pc with
  | testJobs =>
    cases e <;> cases h
    by_cases hjobs : m.jobs ≤ 0
    · exact .inr ⟨hjobs, rfl⟩
    · rw [decide_eq_false hjobs] at hleft
      exact hleft.elim
  | jobsUnlock done =>
    cases e with
    | pick j => cases h
    | ok =>
      cases h
      cases done with
      | true => exact .inl trivial
      | false => exact hleft.elim
    | fail => exact absurd rfl hok
  | exited => cases e <;> cases h
  | _ => cases e <;> first | exact absurd rfl hok | (cases h <;> exact hleft.elim)

/-- **A step of a child** keeps what is said about all of them. -/
theorem Family.kids_step {w : World c} (hint : (c.consNum : Int) ≤ INT_MAX) (h : Family w)
    {p : Proc c} {e : Option (Event c)} (hok : e ≠ some .fail)
    {s' : Sys (Proc c) (Kid c) (Shared c) Sem} (hstep : Sys.step (child c) w.kids (p, e) = some s') :
    Sound kidHeld DemInBounds KidKnows s' ∧ Balanced Shared.jobs waiting 0 s' ∧
      ∀ j, SupplierPlace.LeftLoop (s'.pc (.inr j)).place → ∀ i, s'.mem.demUnit i = 0 := by
  have hsound : Sound kidHeld DemInBounds KidKnows s' := by
    refine h.sound.step (child_disciplined c) (fun k m op hnext => ?_) ?_ hstep
    · exact child_knows h.sound.mem (h.sound.knows p) (fun he => absurd he hok) hnext
    · intro q k m op hne hnext hapart hk
      exact kidKnows_stable hne hnext hapart hk
  have hbalanced : Balanced Shared.jobs waiting 0 s' := by
    refine h.balanced.step (fun k m op hnext => ?_) hstep
    exact child_waiting (h.sound.knows p) (jobs_bounds hint h.balanced)
      (fun he => absurd he hok) hnext
  refine ⟨hsound, hbalanced, ?_⟩
  obtain ⟨k', m', op, sem, hnext, -, rfl⟩ := Sys.step_cases hstep
  intro j hleft i
  -- it had left before, or it has just found that there is nobody
  have hbefore : SupplierPlace.LeftLoop (w.kids.pc (.inr j)).place ∨
      (w.kids.mem.jobs ≤ 0 ∧ m' = w.kids.mem) := by
    by_cases hj : .inr j = p
    · subst hj
      change SupplierPlace.LeftLoop (Function.update w.kids.pc (.inr j) k' (.inr j)).place at hleft
      rw [Function.update_self] at hleft
      rcases child_cases hnext with ⟨pc, pc', e', hk, rfl, rfl, hprog⟩ | ⟨pc, hk, -, rfl, rfl, -⟩
      · rw [hk]
        exact supply_leftLoop (fun he => hok (congrArg some he)) hprog hleft
      · rw [hk]
        exact .inl hleft
    · change SupplierPlace.LeftLoop (Function.update w.kids.pc p k' (.inr j)).place at hleft
      rw [Function.update_of_ne hj] at hleft
      exact .inl hleft
  show m'.demUnit i = 0
  rcases hbefore with hleft | ⟨hjobs, rfl⟩
  · have hle := child_dem_le h.sound.mem (h.sound.knows p) hnext i
    rw [h.told j hleft i] at hle
    exact le_antisymm hle (hsound.mem i).1
  · exact all_satisfied h.sound.knows h.balanced hjobs i

/-! ## 5. The parent -/

/-- A child that has ended takes no step, and one that runs has not been killed. -/
theorem kids_keep {s s' : Sys (Proc c) (Kid c) (Shared c) Sem} {p : Proc c} {e : Event c}
    (hstep : Sys.step (child c) s (p, some e) = some s') (q : Proc c) :
    ((s.pc q).alive = true → (s'.pc q).alive = true) ∧
      (exited q (s.pc q).place = true → exited q (s'.pc q).place = true) := by
  obtain ⟨k', m', op, sem, hnext, -, rfl⟩ := Sys.step_cases hstep
  show ((s.pc q).alive = true → (Function.update s.pc p k' q).alive = true) ∧
    (exited q (s.pc q).place = true → exited q (Function.update s.pc p k' q).place = true)
  by_cases hq : q = p
  · subst hq
    rw [Function.update_self]
    rcases child_cases hnext with ⟨pc, pc', e', hk, -, rfl, hprog⟩ | ⟨pc, -, he, -⟩
    · refine ⟨fun _ => rfl, fun hex => ?_⟩
      rw [hk] at hex
      cases q with
      | inl i =>
        change ConsumerPlace c at pc
        cases pc with
        | exited => cases e' <;> cases hprog
        | _ => cases hex
      | inr j =>
        change SupplierPlace at pc
        cases pc with
        | exited => cases e' <;> cases hprog
        | _ => cases hex
    · cases he
  · rw [Function.update_of_ne hq]
    exact ⟨id, id⟩

theorem parentKnows_child {w : World c} {kids : Sys (Proc c) (Kid c) (Shared c) Sem}
    (h : ParentKnows w) {p : Proc c} {e : Event c}
    (hstep : Sys.step (child c) w.kids (p, some e) = some kids) :
    ParentKnows { w with kids := kids } := by
  have hended : ∀ k, ChildrenEnded w k → ChildrenEnded { w with kids := kids } k := by
    rintro k ⟨halive, hforked, hex⟩
    exact ⟨fun q => (kids_keep hstep q).1 (halive q), hforked,
      fun q hq => (kids_keep hstep q).2 (hex q hq)⟩
  unfold ParentKnows at h ⊢
  dsimp only
  split
  · rename_i k hw
    rw [hw] at h
    exact ⟨fun q => (kids_keep hstep q).1 (h.1 q), h.2⟩
  · rename_i k hw
    rw [hw] at h
    exact hended _ h
  · rename_i k hw
    rw [hw] at h
    exact hended _ h
  · rename_i hw
    rw [hw] at h
    exact hended _ h
  · rename_i hw
    rw [hw] at h
    exact hended _ h
  · trivial

theorem childAt_eq_none {k : Nat} (h : c.childAt k = none) : c.procNum ≤ k := by
  unfold Config.childAt at h
  unfold Config.procNum
  split at h
  · cases h
  · split at h
    · cases h
    · omega

theorem childAt_eq_some {k : Nat} {p : Proc c} (h : c.childAt k = some p) :
    k < c.procNum ∧ index p = k := by
  unfold Config.childAt at h
  unfold Config.procNum
  split at h
  · cases h
    rename_i hk
    exact ⟨by omega, rfl⟩
  · split at h
    · cases h
      rename_i hk hk'
      refine ⟨by omega, ?_⟩
      show c.consNum + (k - c.consNum) = k
      omega
    · cases h

theorem childAt_index (p : Proc c) : c.childAt (index p) = some p := by
  unfold Config.childAt
  cases p with
  | inl i => exact dif_pos i.isLt
  | inr j =>
    have hout : ¬ c.consNum + j.val < c.consNum := by omega
    have hback : c.consNum + j.val - c.consNum = j.val := by omega
    show (if h : c.consNum + j.val < c.consNum then _ else _) = _
    rw [dif_neg hout]
    simp [index, hback]

theorem parentKnows_kill {w : World c} {k : Nat} {failed : Bool} (hw : w.parent = .kill k failed) :
    ParentKnows w ↔ (failed = false → ChildrenEnded w k) := by
  unfold ParentKnows
  rw [hw]
  cases failed <;> simp

theorem parentKnows_waitpid {w : World c} {k : Nat} {failed : Bool}
    (hw : w.parent = .waitpid k failed) :
    ParentKnows w ↔ (failed = false → ChildrenEnded w k) := by
  unfold ParentKnows
  rw [hw]
  cases failed <;> simp

theorem parentKnows_report {w : World c} {failed : Bool} (hw : w.parent = .report failed) :
    ParentKnows w ↔ (failed = false → ChildrenEnded w c.procNum) := by
  unfold ParentKnows
  rw [hw]
  cases failed <;> simp

/-- Where the parent goes without touching its children. -/
theorem Family.goes {w : World c} (h : Family w) (parent : ParentPlace) (forked : Nat)
    (hknows : ParentKnows { w with parent, forked }) : Family { w with parent, forked } :=
  ⟨h.sound, h.balanced, h.told, hknows⟩

/-- All have been forked. -/
theorem ChildrenEnded.forked_all {w : World c} {k : Nat} (h : ChildrenEnded w k) {p : Proc c}
    {n : Nat} (hat : c.childAt n = some p) : n < w.forked :=
  lt_of_lt_of_le (childAt_eq_some hat).1 h.2.1

/-- The next child has ended too. -/
theorem ChildrenEnded.succ {w : World c} {k : Nat} {p : Proc c} (h : ChildrenEnded w k)
    (hat : c.childAt k = some p)
    (hgone : (w.kids.pc p).alive = false ∨ exited p (w.kids.pc p).place = true) :
    ChildrenEnded w (k + 1) := by
  refine ⟨h.1, h.2.1, fun q hq => ?_⟩
  rcases Nat.lt_succ_iff_lt_or_eq.mp hq with hlt | heq
  · exact h.2.2 q hlt
  · have hqp : q = p := Option.some.inj (by rw [← childAt_index q, heq, hat])
    rw [hqp]
    rcases hgone with hdead | hex
    · rw [h.1 p] at hdead
      cases hdead
    · exact hex

/-- There are no more children than that. -/
theorem ChildrenEnded.all {w : World c} {k : Nat} (h : ChildrenEnded w k)
    (hat : c.childAt k = none) : ChildrenEnded w c.procNum :=
  ⟨h.1, h.2.1, fun p hp => h.2.2 p (lt_of_lt_of_le hp (childAt_eq_none hat))⟩

theorem Family.reap_step {w w' : World c} {k : Nat} {failed : Bool}
    (hint : (c.consNum : Int) ≤ INT_MAX) (h : Family w) (hw : w.parent = .kill k failed)
    (hstep : reap w k failed = some w') : Family w' := by
  have hended := (parentKnows_kill hw).mp h.parent
  unfold reap at hstep
  split at hstep
  · rename_i hat
    cases hstep
    exact h.goes _ _ ((parentKnows_report rfl).mpr fun hok => (hended hok).all hat)
  · rename_i p hat
    split at hstep
    · rename_i hforked
      cases hstep
      refine h.goes _ _ ((parentKnows_kill rfl).mpr fun hok => ?_)
      exact absurd hforked (not_le.mpr ((hended hok).forked_all hat))
    · split at hstep
      · rename_i hfailed
        obtain ⟨kids, hkids, rfl⟩ := Option.map_eq_some_iff.mp hstep
        obtain ⟨hsound, hbalanced, htold⟩ := h.kids_step hint (e := none) (by simp) hkids
        refine ⟨hsound, hbalanced, htold, (parentKnows_waitpid rfl).mpr fun hok => ?_⟩
        rw [hfailed] at hok
        cases hok
      · cases hstep
        exact h.goes _ _ ((parentKnows_waitpid rfl).mpr hended)

theorem Family.wait_step {w w' : World c} {k : Nat} {failed : Bool} (h : Family w)
    (hw : w.parent = .waitpid k failed) (hstep : waitFor w k failed = some w') : Family w' := by
  have hended := (parentKnows_waitpid hw).mp h.parent
  unfold waitFor at hstep
  split at hstep
  · cases hstep
  · rename_i p hat
    split at hstep
    · rename_i hgone
      cases hstep
      exact h.goes _ _ ((parentKnows_kill rfl).mpr fun hok => (hended hok).succ hat hgone)
    · cases hstep

/-- **A step of the parent.** Without a failure it goes on to a child when it has seen the one
    before it end. -/
theorem Family.parent_step {w w' : World c} {ok : Bool} (hint : (c.consNum : Int) ≤ INT_MAX)
    (h : Family w) (hstep : parentStep w ok = some w') : Family w' := by
  unfold parentStep at hstep
  split at hstep
  · rename_i k hw
    have hparent := h.parent
    unfold ParentKnows at hparent
    rw [hw] at hparent
    cases hstep
    refine h.goes _ _ ?_
    by_cases hk : k + 1 < c.procNum
    · rw [if_pos hk]
      exact ⟨hparent.1, rfl⟩
    · rw [if_neg hk]
      exact ⟨hparent.1, not_lt.mp hk, fun p hp => absurd hp (Nat.not_lt_zero _)⟩
  · cases hstep
    exact h.goes _ _ trivial
  · rename_i k failed hw
    exact h.reap_step hint hw hstep
  · rename_i k failed hw
    exact h.wait_step hw hstep
  · cases hstep
    exact h.goes _ _ trivial
  · rename_i failed hw
    have hended := (parentKnows_report hw).mp h.parent
    cases hstep
    cases failed with
    | true => exact h.goes _ _ trivial
    | false => exact h.goes _ _ (hended rfl)
  · cases hstep

theorem entry_consumer (c : Config) (i : Fin c.consNum) :
    entry c (.inl i) = ConsumerPlace.attach ∨ entry c (.inl i) = ConsumerPlace.choose := by
  cases hv : c.version with
  | systemV => simp [entry, hv]
  | posix => simp [entry, hv]

theorem entry_supplier (c : Config) (j : Fin c.supNum) :
    entry c (.inr j) = SupplierPlace.attach ∨ entry c (.inr j) = SupplierPlace.lock := by
  cases hv : c.version with
  | systemV => simp [entry, hv]
  | posix => simp [entry, hv]

theorem family_init (c : Config) (hint : (c.consNum : Int) ≤ INT_MAX) :
    Family (World.init c) := by
  have hheld : ∀ p : Proc c, kidHeld p ⟨entry c p, true⟩ = ∅ := by
    intro p
    show held p (entry c p) = ∅
    cases p with
    | inl i => rcases entry_consumer c i with hpc | hpc <;> rw [hpc] <;> rfl
    | inr j => rcases entry_supplier c j with hpc | hpc <;> rw [hpc] <;> rfl
  have hknows : ∀ p, KidKnows p ((World.init c).kids.pc p) (World.init c).kids.mem := by
    intro p
    cases p with
    | inl i =>
      show (true = true → ConsumerPlace.Registers i (entry c (.inl i)) (init c).mem) ∧
        (ConsumerPlace.Satisfied (entry c (.inl i)) → (init c).mem.demUnit i = 0)
      rcases entry_consumer c i with hpc | hpc <;> rw [hpc] <;> exact ⟨fun _ => trivial, False.elim⟩
    | inr j => trivial
  have hbalanced : Balanced Shared.jobs waiting 0 (World.init c).kids := by
    have hpos : INT_MIN ≤ (c.consNum : Int) := le_trans (by decide) (Int.natCast_nonneg _)
    have hjobs : (World.init c).kids.mem.jobs = c.consNum := by
      simp only [World.init, init]
      exact wrap32_of_inRange ⟨hpos, hint⟩
    have hall : (Finset.univ.filter fun i : Fin c.consNum =>
        ConsumerPlace.decremented ((World.init c).kids.pc (.inl i)).place = false) =
          Finset.univ := by
      refine Finset.filter_true_of_mem fun i _ => ?_
      show ConsumerPlace.decremented (entry c (.inl i)) = false
      rcases entry_consumer c i with hpc | hpc <;> rw [hpc] <;> rfl
    unfold Lib.Balanced
    rw [hjobs, zero_add, sum_waiting, hall, Finset.card_univ, Fintype.card_fin]
  have htold : ∀ j, ¬ SupplierPlace.LeftLoop (entry c (.inr j)) := by
    intro j
    rcases entry_supplier c j with hpc | hpc <;> rw [hpc] <;> exact id
  have hdem : DemInBounds (World.init c).kids.mem :=
    fun _ => ⟨le_of_lt c.demandOk.1, le_refl _⟩
  exact ⟨⟨.initial hheld fun _ => rfl, hdem, hknows⟩, hbalanced,
    fun j hleft => absurd hleft (htold j), fun _ => rfl, rfl⟩

theorem family_step (hint : (c.consNum : Int) ≤ INT_MAX) (w : World c) (a : Turn c)
    (w' : World c) (h : Family w) (hok : Succeeds a) (hstep : w.step a = some w') :
    Family w' := by
  cases a with
  | parent ok => exact h.parent_step hint hstep
  | child p e =>
    rw [World.step] at hstep
    split at hstep
    · obtain ⟨kids, hkids, rfl⟩ := Option.map_eq_some_iff.mp hstep
      have he : some e ≠ some Event.fail := fun he => hok (Option.some.inj he)
      obtain ⟨hsound, hbalanced, htold⟩ := h.kids_step hint he hkids
      exact ⟨hsound, hbalanced, htold, parentKnows_child h.parent hkids⟩
    · cases hstep

theorem index_lt (p : Proc c) : index p < c.procNum := by
  cases p with
  | inl i => exact lt_of_lt_of_le i.isLt (Nat.le_add_right _ _)
  | inr j => exact Nat.add_lt_add_left j.isLt _

/-- **`jobs` counts the consumers that have not been through it**, and who finds it at zero, or
    waits for everybody, finds every demand satisfied. -/
theorem termination_detected (hint : (c.consNum : Int) ≤ INT_MAX) {w : World c}
    (h : Reaches World.step (fun _ a => Succeeds a) (World.init c) w) :
    w.kids.mem.jobs = ((Finset.univ.filter fun i : Fin c.consNum =>
        ConsumerPlace.decremented (w.kids.pc (.inl i)).place = false).card : Int) ∧
      0 ≤ w.kids.mem.jobs ∧
      (∀ j, SupplierPlace.LeftLoop (w.kids.pc (.inr j)).place →
        ∀ i, w.kids.mem.demUnit i = 0) ∧
      (w.parent = .report false ∨ w.parent = .done true → ∀ i, w.kids.mem.demUnit i = 0) := by
  have hinv : Family w := h.invariant (family_init c hint) (family_step hint)
  have hcount : w.kids.mem.jobs = 0 + ∑ p, waiting p (w.kids.pc p) := hinv.balanced
  rw [zero_add, sum_waiting] at hcount
  refine ⟨hcount, (jobs_bounds hint hinv.balanced).1, hinv.told, fun hsays i => ?_⟩
  have hended : ChildrenEnded w c.procNum := by
    have hparent := hinv.parent
    unfold ParentKnows at hparent
    rcases hsays with hw | hw <;> rw [hw] at hparent <;> exact hparent
  -- a consumer ends satisfied
  have hex := hended.2.2 (.inl i) (index_lt _)
  refine (hinv.sound.knows (.inl i)).2 ?_
  generalize (w.kids.pc (.inl i)).place = pc at hex
  change ConsumerPlace c at pc
  cases pc with
  | exited => trivial
  | _ => cases hex

/-- All forks succeed, the consumer buys what it needs and goes, the supplier makes a round and
    goes, and the parent has seen both end. -/
def shopDay : List (Turn smallShop) :=
  [.parent true, .parent true] ++
    .child (.inl buyer) .ok :: .child (.inl buyer) (.pick seller) ::
      List.replicate 15 (.child (.inl buyer) .ok) ++
    List.replicate 8 (.child (.inr seller) .ok) ++
    List.replicate 6 (.parent true)

theorem termination_detected_shopDay :
    ∃ w : World smallShop, run World.step shopDay (World.init smallShop) = some w ∧
      w.parent = .done true ∧ w.kids.mem.jobs = 0 ∧ ∀ i, w.kids.mem.demUnit i = 0 := by
  have hok : ∀ a ∈ shopDay, ∀ w : World smallShop, Succeeds a := by
    intro a ha _
    simp only [shopDay, List.mem_append, List.mem_cons, List.mem_replicate, List.not_mem_nil,
      or_false] at ha
    rcases ha with (((rfl | rfl) | rfl | rfl | ⟨-, rfl⟩) | ⟨-, rfl⟩) | ⟨-, rfl⟩ <;> simp [Succeeds]
  refine ⟨_, rfl, rfl, rfl, ?_⟩
  exact (termination_detected (by decide) (reaches_of_run hok .start rfl)).2.2.2 (.inr rfl)

end ConsumerSupplier
end Labs
