import Labs.CustomerStore.Knowledge
import Mathlib.Tactic.FinCases

/-!
# Stuck runs

A customer or supplier is idle while it waits on a condition, and after it has returned. All the
others are on their way: a thread that is not idle stands before a mutex at most, and the thread
that has the mutex is not idle either; behind `flag_mutex` nobody stands before another one. So with
one of them awake one of them can take a step (`progress`), and a run is stuck when the last one
goes idle while there is demand left.

The code lets that happen. A supplier waits at a store with goods until a customer has emptied that
store, a customer waits at an empty store until a supplier has filled that one, and both choose
their stores at random. Nothing else goes wrong (`never_stuck_iff`).

## What is proved, and in which order

That mutexes alone never block is the part with the argument. Take a thread that is awake. Either it
can move, or it wants a mutex; the owner of that mutex is awake too (`holder`), and wants at most
`flag_mutex`, which is never held by somebody who wants another one. So after two steps along the
owners somebody can move (`progress`). Nothing is asked of the scheduler here.

Being stuck is then a matter of sleeping (`notStuck_iff`), and a run gets stuck in the step in which
the last thread that is awake goes idle. `GoesIdle` and `LastGoesIdle` are about the state before
that step, so the condition of `never_stuck_iff` is one on the steps that are taken, and it does not
speak of the state behind them. It is exact in both directions: a run without such a step is never
stuck, and after such a step nobody moves but by a spurious wake-up (`stuck_of_idle`).
-/

namespace Labs
namespace CustomerStore

open Lib

variable {m m' : Shared} {op : SemOp Mutex} {e : Event} {s s' : State} {t u : Thread}

/-! ## 1. Idle threads -/

def CustomerPlace.Idle (i : Customer) : CustomerPlace → Shared → Prop
  | .asleep num, m => m.waiting (.empty num) (.customer i) = true
  | .returned, _ => True
  | _, _ => False

def SupplierPlace.Idle (j : Store) : SupplierPlace → Shared → Prop
  | .asleep num, m => m.waiting (.full num) (.supplier j) = true
  | .returned, _ => True
  | _, _ => False

def idleAt : (t : Thread) → Place t → Shared → Prop
  | .main, _, _ => False
  | .customer i, pc, m => CustomerPlace.Idle i pc m
  | .supplier j, pc, m => SupplierPlace.Idle j pc m

/-- The thread waits on a condition, or has returned. -/
def Idle (s : State) (t : Thread) : Prop := idleAt t (s.pc t) s.mem

/-- A step of the thread, and not just a spurious wake-up. -/
def CanStep (s : State) (t : Thread) : Prop := ∃ e, e ≠ .spurious ∧ (step s (t, e)).isSome

def AllCreated (s : State) : Prop := ∀ t, t ≠ .main → s.mem.created t = true

def Unsatisfied (s : State) : Prop := ∃ i, 0 < s.mem.demand i

/-- With all threads created and demand left, a customer or a supplier can take a step. -/
def NotStuck (s : State) : Prop :=
  AllCreated s → Unsatisfied s → ∃ t, t ≠ .main ∧ CanStep s t

/-- The mutex that the thread acquires in its next step. -/
def CustomerPlace.wants : CustomerPlace → Option Mutex
  | .lock num | .asleep num => some (.store num)
  | _ => none

def SupplierPlace.wants : SupplierPlace → Option Mutex
  | .lock num | .asleep num => some (.store num)
  | .lockFlag _ _ => some .flag
  | _ => none

def wants (s : State) : Thread → Option Mutex
  | .main => none
  | .customer i => CustomerPlace.wants (s.pc (.customer i))
  | .supplier j => SupplierPlace.wants (s.pc (.supplier j))

theorem customer_enabled {i : Customer} {pc : CustomerPlace} (hidle : ¬ pc.Idle i m)
    (hcreated : m.created (.customer i) = true) :
    ∃ e r, e ≠ .spurious ∧ purchaseStart i pc m e = some r ∧
      ∀ x, r.2.2 = .wait x → pc.wants = some x := by
  cases pc with
  | start => exact ⟨.ok, _, nofun, if_pos hcreated, nofun⟩
  | testDemand =>
    by_cases hd : 0 < m.demand i
    · exact ⟨.ok, _, nofun, if_pos hd, nofun⟩
    · exact ⟨.ok, _, nofun, if_neg hd, nofun⟩
  | choose => exact ⟨.pick 0, _, nofun, rfl, nofun⟩
  | lock num =>
    refine ⟨.ok, _, nofun, rfl, fun x hx => ?_⟩
    cases hx
    rfl
  | testGoods num | testEmpty num =>
    by_cases hg : m.goods num ≤ 0
    · exact ⟨.ok, _, nofun, if_pos hg, nofun⟩
    · exact ⟨.ok, _, nofun, if_neg hg, nofun⟩
  | asleep num =>
    refine ⟨.ok, _, nofun, if_neg hidle, fun x hx => ?_⟩
    cases hx
    rfl
  | returned => exact absurd trivial hidle
  | _ => exact ⟨.ok, _, nofun, rfl, nofun⟩

theorem supplier_enabled {j : Store} {pc : SupplierPlace} (hidle : ¬ pc.Idle j m)
    (hcreated : m.created (.supplier j) = true) :
    ∃ e r, e ≠ .spurious ∧ supplyStart j pc m e = some r ∧
      ∀ x, r.2.2 = .wait x → pc.wants = some x := by
  cases pc with
  | start => exact ⟨.ok, _, nofun, if_pos hcreated, nofun⟩
  | choose => exact ⟨.pick 0, _, nofun, rfl, nofun⟩
  | lock num | lockFlag num full =>
    refine ⟨.ok, _, nofun, rfl, fun x hx => ?_⟩
    cases hx
    rfl
  | testOpen num full =>
    by_cases ho : m.storesOpen = true
    · exact ⟨.ok, _, nofun, if_pos ho, nofun⟩
    · exact ⟨.ok, _, nofun, if_neg ho, nofun⟩
  | unlockFlag num full => cases full <;> exact ⟨.ok, _, nofun, rfl, nofun⟩
  | testFull num =>
    by_cases hg : 0 < m.goods num
    · exact ⟨.ok, _, nofun, if_pos hg, nofun⟩
    · exact ⟨.ok, _, nofun, if_neg hg, nofun⟩
  | asleep num =>
    refine ⟨.ok, _, nofun, if_neg hidle, fun x hx => ?_⟩
    cases hx
    rfl
  | returned => exact absurd trivial hidle
  | _ => exact ⟨.ok, _, nofun, rfl, nofun⟩

theorem canStep_of_awake (ht : t ≠ .main) (hidle : ¬ Idle s t) (hcreated : s.mem.created t = true)
    (hfree : ∀ x, wants s t = some x → 0 < s.sem x) : CanStep s t := by
  cases t with
  | main => exact absurd rfl ht
  | customer i =>
    obtain ⟨e, r, he, hnext, hwait⟩ := customer_enabled hidle hcreated
    exact ⟨e, he, Sys.step_isSome hnext fun x hx => hfree x (hwait x hx)⟩
  | supplier j =>
    obtain ⟨e, r, he, hnext, hwait⟩ := supplier_enabled hidle hcreated
    exact ⟨e, he, Sys.step_isSome hnext fun x hx => hfree x (hwait x hx)⟩

theorem customer_idle_none {i : Customer} {pc : CustomerPlace} (hidle : pc.Idle i m)
    (he : e ≠ .spurious) : purchaseStart i pc m e = none := by
  cases pc with
  | asleep num =>
    cases e with
    | ok => exact if_pos hidle
    | spurious => exact absurd rfl he
    | _ => rfl
  | returned => cases e <;> rfl
  | _ => exact absurd hidle id

theorem supplier_idle_none {j : Store} {pc : SupplierPlace} (hidle : pc.Idle j m)
    (he : e ≠ .spurious) : supplyStart j pc m e = none := by
  cases pc with
  | asleep num =>
    cases e with
    | ok => exact if_pos hidle
    | spurious => exact absurd rfl he
    | _ => rfl
  | returned => cases e <;> rfl
  | _ => exact absurd hidle id

/-- An idle thread does nothing but wake up for no reason. -/
theorem awake_of_canStep (h : CanStep s t) : ¬ Idle s t := by
  intro hidle
  obtain ⟨e, he, hsome⟩ := h
  have hnone : program t (s.pc t) s.mem e = none := by
    cases t with
    | main => exact absurd hidle id
    | customer i => exact customer_idle_none hidle he
    | supplier j => exact supplier_idle_none hidle he
  have hstep : step s (t, e) = none := by
    show (program t (s.pc t) s.mem e).bind _ = none
    rw [hnone]
    rfl
  rw [hstep] at hsome
  exact Bool.false_ne_true hsome

/-! ## 2. Whoever has a mutex gets on -/

theorem customer_holder {i : Customer} {pc : CustomerPlace} {x : Mutex} (hx : x ∈ pc.held) :
    ¬ pc.Idle i m ∧ pc.wants = none := by
  cases pc with
  | start | testDemand | choose | lock num | asleep num | returned => exact absurd hx id
  | _ => exact ⟨id, rfl⟩

theorem supplier_holder {j : Store} {pc : SupplierPlace} {x : Mutex} (hx : x ∈ pc.held) :
    ¬ pc.Idle j m ∧ ∀ y, pc.wants = some y → y = .flag ∧ Mutex.flag ∉ pc.held := by
  cases pc with
  | start | choose | lock num | asleep num | returned => exact absurd hx id
  | lockFlag num full =>
    refine ⟨id, fun y hy => ?_⟩
    cases hy
    exact ⟨rfl, nofun⟩
  | _ => exact ⟨id, nofun⟩

/-- Whoever has a mutex is awake, and wants `flag_mutex` at most, which it does not have. -/
theorem holder {x : Mutex} (ht : t ≠ .main) (hx : x ∈ held t (s.pc t)) :
    ¬ Idle s t ∧ ∀ y, wants s t = some y → y = .flag ∧ Mutex.flag ∉ held t (s.pc t) := by
  cases t with
  | main => exact absurd rfl ht
  | supplier j => exact supplier_holder hx
  | customer i =>
    obtain ⟨hidle, hwants⟩ := customer_holder (i := i) (m := s.mem) hx
    refine ⟨hidle, fun y hy => ?_⟩
    have hy : CustomerPlace.wants (s.pc (.customer i)) = some y := hy
    rw [hwants] at hy
    cases hy

theorem main_holds_nothing (h : Inv s) (hd : Unsatisfied s) : held .main (s.pc .main) = ∅ := by
  obtain ⟨i, hi⟩ := hd
  have hk : MainPlace.Knows (s.pc .main) s.mem := h.sound.knows .main
  -- behind the joins nobody has any demand
  have hbefore : ¬ ∀ i, s.mem.returned (.customer i) = true := by
    intro hall
    exact absurd (h.sound.mem.satisfied i (hall i)) (not_le.mpr hi)
  show MainPlace.held (s.pc .main) = ∅
  revert hk
  cases s.pc .main with
  | close | unlockFlag | broadcast num | unlock num => exact fun hk => absurd hk hbefore
  | _ => exact fun _ => rfl

theorem taken_owner {x : Mutex} (h : Inv s) (hd : Unsatisfied s) (hx : ¬ 0 < s.sem x) :
    ∃ u, u ≠ .main ∧ x ∈ held u (s.pc u) := by
  have hzero : s.sem x = 0 := by
    rcases h.sound.locks.binary x with h0 | h1
    · exact h0
    · rw [h1] at hx
      exact absurd Int.one_pos hx
  obtain ⟨u, hu⟩ := h.owned x hzero
  refine ⟨u, fun hmain => ?_, hu⟩
  subst hmain
  rw [main_holds_nothing h hd] at hu
  exact hu

/-- **As long as somebody is awake, somebody gets on.** -/
theorem progress (h : Inv s) (hc : AllCreated s) (hd : Unsatisfied s) (ht : t ≠ .main)
    (hidle : ¬ Idle s t) : ∃ u, u ≠ .main ∧ CanStep s u := by
  -- a thread with `flag_mutex`
  have hflag : ∀ u, u ≠ .main → Mutex.flag ∈ held u (s.pc u) → CanStep s u := by
    intro u hu hx
    obtain ⟨hawake, hwants⟩ := holder hu hx
    exact canStep_of_awake hu hawake (hc u hu) fun y hy => absurd hx (hwants y hy).2
  -- a thread with any mutex stands before `flag_mutex` at most
  have hany : ∀ u x, u ≠ .main → x ∈ held u (s.pc u) → ∃ v, v ≠ .main ∧ CanStep s v := by
    intro u x hu hx
    obtain ⟨hawake, hwants⟩ := holder hu hx
    by_cases hfree : 0 < s.sem .flag
    · refine ⟨u, hu, canStep_of_awake hu hawake (hc u hu) fun y hy => ?_⟩
      rw [(hwants y hy).1]
      exact hfree
    · obtain ⟨v, hv, hx⟩ := taken_owner h hd hfree
      exact ⟨v, hv, hflag v hv hx⟩
  by_cases hfree : ∀ x, wants s t = some x → 0 < s.sem x
  · exact ⟨t, ht, canStep_of_awake ht hidle (hc t ht) hfree⟩
  · push Not at hfree
    obtain ⟨x, -, hx⟩ := hfree
    obtain ⟨u, hu, hx⟩ := taken_owner h hd (not_lt.mpr hx)
    exact hany u x hu hx

theorem notStuck_iff (h : Inv s) :
    NotStuck s ↔ (AllCreated s → Unsatisfied s → ∃ t, t ≠ .main ∧ ¬ Idle s t) := by
  constructor
  · intro hns hc hd
    obtain ⟨t, ht, hstep⟩ := hns hc hd
    exact ⟨t, ht, awake_of_canStep hstep⟩
  · intro hawake hc hd
    obtain ⟨t, ht, hidle⟩ := hawake hc hd
    exact progress h hc hd ht hidle

theorem stuck_of_idle (hc : AllCreated s) (hd : Unsatisfied s)
    (hidle : ∀ t, t ≠ .main → Idle s t) : ¬ NotStuck s := by
  intro hns
  obtain ⟨t, ht, hstep⟩ := hns hc hd
  exact awake_of_canStep hstep (hidle t ht)

/-! ## 3. The last one to go idle -/

/-- The customer waits in its next step, or returns. -/
def CustomerPlace.GoesIdle (i : Customer) : CustomerPlace → Shared → Prop
  | .condWait _, _ => True
  | .testDemand, m => m.demand i ≤ 0
  | _, _ => False

/-- The supplier waits in its next step. -/
def SupplierPlace.GoesIdle : SupplierPlace → Prop
  | .condWait _ => True
  | _ => False

def GoesIdle (s : State) : Thread → Prop
  | .main => False
  | .customer i => CustomerPlace.GoesIdle i (s.pc (.customer i)) s.mem
  | .supplier j => SupplierPlace.GoesIdle (s.pc (.supplier j))

/-- All the others are idle, and `t` goes idle with demand left. -/
structure LastGoesIdle (s : State) (t : Thread) : Prop where
  created : AllCreated s
  unsatisfied : Unsatisfied s
  others : ∀ u, u ≠ .main → u ≠ t → Idle s u
  goes : GoesIdle s t

/-- What going idle does to the memory. -/
structure Sleeps (t : Thread) (m m' : Shared) : Prop where
  demand : m'.demand = m.demand
  waiting : ∀ cond u, u ≠ t → m'.waiting cond u = m.waiting cond u

theorem Sleeps.sleep (m : Shared) (cond : Cond) (t : Thread) : Sleeps t m (m.sleep cond t) := by
  refine ⟨rfl, fun cond' u hu => ?_⟩
  show Function.update m.waiting cond _ cond' u = m.waiting cond' u
  by_cases hc : cond' = cond
  · subst hc
    rw [Function.update_self, Function.update_of_ne hu]
  · rw [Function.update_of_ne hc]

theorem sleep_waiting (m : Shared) (cond : Cond) (t : Thread) :
    (m.sleep cond t).waiting cond t = true := by
  show Function.update m.waiting cond _ cond t = true
  rw [Function.update_self, Function.update_self]

theorem wake_waiting (m : Shared) (cond : Cond) (t : Thread) :
    (m.wake cond t).waiting cond t = false := by
  show Function.update m.waiting cond _ cond t = false
  rw [Function.update_self, Function.update_self]

theorem customer_goesIdle {i : Customer} {pc pc' : CustomerPlace} (hgoes : pc.GoesIdle i m)
    (h : purchaseStart i pc m e = some (pc', m', op)) :
    pc'.Idle i m' ∧ Sleeps (.customer i) m m' := by
  cases pc with
  | condWait num =>
    cases e <;> cases h
    exact ⟨sleep_waiting _ _ _, .sleep _ _ _⟩
  | testDemand =>
    cases e <;> try cases h
    simp only [purchaseStart] at h
    rw [if_neg (not_lt.mpr hgoes)] at h
    cases h
    exact ⟨trivial, rfl, fun _ _ _ => rfl⟩
  | _ => exact absurd hgoes id

theorem supplier_goesIdle {j : Store} {pc pc' : SupplierPlace} (hgoes : pc.GoesIdle)
    (h : supplyStart j pc m e = some (pc', m', op)) :
    pc'.Idle j m' ∧ Sleeps (.supplier j) m m' := by
  cases pc with
  | condWait num =>
    cases e <;> cases h
    exact ⟨sleep_waiting _ _ _, .sleep _ _ _⟩
  | _ => exact absurd hgoes id

theorem customer_staysAwake {i : Customer} {pc pc' : CustomerPlace} (hgoes : ¬ pc.GoesIdle i m)
    (h : purchaseStart i pc m e = some (pc', m', op)) : ¬ pc'.Idle i m' := by
  cases pc with
  | condWait num => exact absurd trivial hgoes
  | start | testGoods num | testEmpty num =>
    cases e <;> try cases h
    simp only [purchaseStart] at h
    split at h <;> cases h <;> exact id
  | testDemand =>
    cases e <;> try cases h
    simp only [purchaseStart] at h
    split at h <;> cases h
    · exact id
    · rename_i hd
      exact absurd (not_lt.mp hd) hgoes
  | asleep num =>
    cases e <;> try cases h
    · simp only [purchaseStart] at h
      split at h <;> cases h
      exact id
    · intro hidle
      rw [CustomerPlace.Idle, wake_waiting] at hidle
      exact Bool.false_ne_true hidle
  | _ => cases e <;> cases h <;> exact id

theorem supplier_staysAwake {j : Store} {pc pc' : SupplierPlace} (hgoes : ¬ pc.GoesIdle)
    (hopen : ¬ pc.Closed) (h : supplyStart j pc m e = some (pc', m', op)) : ¬ pc'.Idle j m' := by
  cases pc with
  | condWait num => exact absurd trivial hgoes
  | closedUnlock num => exact absurd trivial hopen
  | start | testFull num =>
    cases e <;> try cases h
    simp only [supplyStart] at h
    split at h <;> cases h <;> exact id
  | testOpen num full =>
    cases e <;> try cases h
    simp only [supplyStart] at h
    split at h <;> cases h <;> exact id
  | unlockFlag num full => cases full <;> cases e <;> cases h <;> exact id
  | asleep num =>
    cases e <;> try cases h
    · simp only [supplyStart] at h
      split at h <;> cases h
      exact id
    · intro hidle
      rw [SupplierPlace.Idle, wake_waiting] at hidle
      exact Bool.false_ne_true hidle
  | _ => cases e <;> cases h <;> exact id

theorem idleAt_mono {pc : Place u} (hw : ∀ cond, m.waiting cond u = true → m'.waiting cond u = true)
    (h : idleAt u pc m) : idleAt u pc m' := by
  cases u with
  | main => exact h
  | customer i =>
    cases pc with
    | asleep num => exact hw _ h
    | _ => exact h
  | supplier j =>
    cases pc with
    | asleep num => exact hw _ h
    | _ => exact h

theorem customer_demand_le {i : Customer} {pc pc' : CustomerPlace} (hm : Consistent m)
    (hk : pc.Knows i m) (h : purchaseStart i pc m e = some (pc', m', op)) :
    m'.demand i ≤ m.demand i := by
  cases pc with
  | storeDemand num demand =>
    cases e <;> cases h
    obtain ⟨h0, rfl⟩ := hk.shopping
    show Function.update m.demand i _ i ≤ m.demand i
    rw [demand_step h0 (hm.bound i), Function.update_self]
    exact sub_le_self _ (by decide)
  | start | testDemand =>
    cases e <;> try cases h
    simp only [purchaseStart] at h
    split at h <;> cases h <;> exact le_refl _
  | testGoods num | testEmpty num =>
    cases e <;> try cases h
    simp only [purchaseStart] at h
    split at h <;> cases h <;> exact le_refl _
  | asleep num =>
    cases e <;> try cases h
    · simp only [purchaseStart] at h
      split at h <;> cases h
      exact le_refl _
    · exact le_refl _
  | _ => cases e <;> cases h <;> exact le_refl _

/-- Demand that is left was there before the step. -/
theorem demand_before {pc : Place t} (h : Inv s) (ht : t ≠ .main)
    (hnext : program t (s.pc t) s.mem e = some (pc, m, op)) (i : Customer) :
    m.demand i ≤ s.mem.demand i := by
  by_cases hti : t = .customer i
  · subst hti
    exact customer_demand_le h.sound.mem (h.sound.knows (.customer i)) hnext
  · exact le_of_eq ((program_leavesMain ht hnext).demand i hti)

/-! ## 4. Every run -/

/-- A step of `main` leaves somebody awake, if somebody was, or a new thread. -/
theorem main_staysAwake {pc : MainPlace} (h : Inv s) (hns : NotStuck s)
    (hnext : mainThread (s.pc .main) s.mem e = some (pc, m, op))
    (hd : ∃ i, 0 < m.demand i) : ∃ u, u ≠ .main ∧ ¬ idleAt u (s.pc u) m := by
  by_cases hold : AllCreated s
  · have hsame : ∀ i, m.demand i = s.mem.demand i := fun i =>
      main_demand (h.sound.knows .main) hnext (hold (.customer i) nofun)
    obtain ⟨i, hi⟩ := hd
    rw [hsame i] at hi
    obtain ⟨u, hu, hawake⟩ := (notStuck_iff h).mp hns hold ⟨i, hi⟩
    refine ⟨u, hu, fun hidle => hawake ?_⟩
    exact idleAt_mono (fun cond => (main_leaves hnext).woken cond u hu) hidle
  · -- a thread that was not there before is at its start
    unfold AllCreated at hold
    push Not at hold
    obtain ⟨u, hu, hnot⟩ := hold
    refine ⟨u, hu, ?_⟩
    cases u with
    | main => exact absurd rfl hu
    | customer i =>
      have hk : CustomerPlace.Knows i (s.pc (.customer i)) s.mem := h.sound.knows (.customer i)
      have hstart : s.pc (.customer i) = .start := by
        by_contra hne
        exact hnot (hk.created hne)
      rw [hstart]
      exact id
    | supplier j =>
      have hk : SupplierPlace.Knows j (s.pc (.supplier j)) s.mem := h.sound.knows (.supplier j)
      have hstart : s.pc (.supplier j) = .start := by
        by_contra hne
        exact hnot (hk.created hne)
      rw [hstart]
      exact id

/-- A customer or supplier that does not go idle is awake after its step. -/
theorem staysAwake {pc : Place t} (h : Inv s) (ht : t ≠ .main) (hd : Unsatisfied s)
    (hgoes : ¬ GoesIdle s t) (hnext : program t (s.pc t) s.mem e = some (pc, m, op)) :
    ¬ idleAt t pc m := by
  cases t with
  | main => exact absurd rfl ht
  | customer i => exact customer_staysAwake hgoes hnext
  | supplier j =>
    have hk : SupplierPlace.Knows j (s.pc (.supplier j)) s.mem := h.sound.knows (.supplier j)
    refine supplier_staysAwake hgoes (fun hclosed => ?_) hnext
    obtain ⟨i, hi⟩ := hd
    exact absurd (h.sound.mem.closed (hk.closed hclosed) i) (not_le.mpr hi)

theorem goesIdle {pc : Place t} (hgoes : GoesIdle s t)
    (hnext : program t (s.pc t) s.mem e = some (pc, m, op)) :
    idleAt t pc m ∧ Sleeps t s.mem m := by
  cases t with
  | main => exact absurd hgoes id
  | customer i => exact customer_goesIdle hgoes hnext
  | supplier j => exact supplier_goesIdle hgoes hnext

/-- **A step gets the run stuck exactly when it is the last one that goes idle.** -/
theorem notStuck_step (h : Inv s) (hns : NotStuck s) (hstep : step s (t, e) = some s') :
    NotStuck s' ↔ ¬ LastGoesIdle s t := by
  rw [notStuck_iff (inv_step h hstep)]
  obtain ⟨pc, m, op, sem, hnext, -, rfl⟩ := Sys.step_cases hstep
  -- the places after the step
  have hself : Function.update s.pc t pc t = pc := Function.update_self _ _ _
  have hother : ∀ u, u ≠ t → Function.update s.pc t pc u = s.pc u :=
    fun u hu => Function.update_of_ne hu _ _
  have hleaves := program_leaves hnext
  constructor
  · intro hafter hlast
    obtain ⟨hidle, hsleeps⟩ := goesIdle hlast.goes hnext
    have hd : ∃ i, 0 < m.demand i := by
      rw [hsleeps.demand]
      exact hlast.unsatisfied
    obtain ⟨u, hu, hawake⟩ := hafter (fun u hu => hleaves.created u (hlast.created u hu)) hd
    refine hawake ?_
    show idleAt u (Function.update s.pc t pc u) m
    by_cases hut : u = t
    · subst hut
      rw [hself]
      exact hidle
    · rw [hother u hut]
      refine idleAt_mono (fun cond hw => ?_) (hlast.others u hu hut)
      rw [hsleeps.waiting cond u hut]
      exact hw
  · intro hlast hc hd
    by_cases ht : t = .main
    · subst ht
      obtain ⟨u, hu, hawake⟩ := main_staysAwake h hns hnext hd
      refine ⟨u, hu, ?_⟩
      show ¬ idleAt u (Function.update s.pc .main pc u) m
      rw [hother u hu]
      exact hawake
    · have hcreated : AllCreated s := fun u hu => by
        rw [← (program_leavesMain ht hnext).creating]
        exact hc u hu
      obtain ⟨i, hi⟩ := hd
      have hunsat : Unsatisfied s := ⟨i, lt_of_lt_of_le hi (demand_before h ht hnext i)⟩
      by_cases hgoes : GoesIdle s t
      · -- somebody else is awake, and stays so
        have hex : ∃ u, u ≠ .main ∧ u ≠ t ∧ ¬ Idle s u := by
          by_contra hnone
          push Not at hnone
          exact hlast ⟨hcreated, hunsat, hnone, hgoes⟩
        obtain ⟨u, hu, hut, hawake⟩ := hex
        refine ⟨u, hu, ?_⟩
        show ¬ idleAt u (Function.update s.pc t pc u) m
        rw [hother u hut]
        exact fun hidle => hawake (idleAt_mono (fun cond => hleaves.woken cond u hut) hidle)
      · refine ⟨t, ht, ?_⟩
        show ¬ idleAt t (Function.update s.pc t pc t) m
        rw [hself]
        exact staysAwake h ht hunsat hgoes hnext

theorem notStuck_init : NotStuck init := fun hc => absurd (hc (.customer 0) nofun) Bool.false_ne_true

/-- **A run never gets stuck exactly when none of its steps is the last one that goes idle.** -/
theorem never_stuck_iff (as : List (Thread × Event)) :
    Visits step NotStuck as init ↔ Takes step (fun s a => ¬ LastGoesIdle s a.1) as init :=
  visits_iff_takes (fun _ _ _ h hstep => inv_step h hstep)
    (fun _ _ _ h hns hstep => notStuck_step h hns hstep) inv_init notStuck_init

/-- Customer 0 draws a demand and the others none; store 0 draws goods and the others none. -/
def opening : List (Thread × Event) :=
  (.main, .drawDemand 500) :: List.replicate 4 (.main, .drawDemand 0) ++
    [(.main, .drawGoods 100), (.main, .ok), (.main, .drawGoods 0), (.main, .ok),
      (.main, .drawGoods 0), (.main, .ok)]

/-- A thread starts, picks a store and goes on for `n` steps. -/
def visit (t : Thread) (start : List Event) (num : Store) (n : Nat) : List (Thread × Event) :=
  start.map (t, ·) ++ (t, .pick num) :: List.replicate n (t, .ok)

/-- The others have what they want; customer 0 goes to the last store, and the suppliers to the
    first one. -/
def badLuck : List (Thread × Event) :=
  opening ++ (List.finRange 4).flatMap (fun i => List.replicate 2 (Thread.customer i.succ, .ok)) ++
    visit (.customer firstCustomer) [.ok, .ok] (Fin.last _) 3 ++
    (List.finRange STORE_NUM).flatMap fun j => visit (.supplier j) [.ok] firstStore 6

/-- Customer 0 has a demand of 500 and waits for goods at the last store, all suppliers wait until
    the first store is empty, and nobody can take a step. -/
theorem suppliers_wait_elsewhere :
    ∃ s, run step badLuck init = some s ∧ s.mem.demand firstCustomer = 500 ∧
      s.mem.goods firstStore = 100 ∧ s.mem.goods (Fin.last _) = 0 ∧ ¬ NotStuck s := by
  refine ⟨_, rfl, rfl, rfl, rfl, stuck_of_idle (fun t ht => ?_) ⟨firstCustomer, by decide⟩ fun t ht => ?_⟩
  · cases t with
    | main => exact absurd rfl ht
    | customer i => fin_cases i <;> rfl
    | supplier j => fin_cases j <;> rfl
  · cases t with
    | main => exact absurd rfl ht
    | customer i => fin_cases i <;> first | exact trivial | rfl
    | supplier j => fin_cases j <;> rfl

end CustomerStore
end Labs
