import Labs.CustomerStore.Stuck
import Labs.Lib.Progress

/-!
# Closing the stores

`main` sets `stores_open` to false under `flag_mutex`, and then takes the mutex of each store for
its broadcast. A supplier tests the flag and goes to wait inside one critical section of its store.
So a supplier that has seen the stores open is through with its wait, or asleep, when `main` has the
mutex: the broadcast wakes it, and the next one sees them closed (`Quiet`).

From there on every step of a supplier or of `main` is one of a bounded number of steps
(`remaining`), and one of them is always possible until all suppliers have returned.

## Why no wake-up is lost

The flag is not protected by the mutex that belongs to the condition variable, which is how wake-ups
get lost. What saves the program is that a supplier takes `flag_mutex` inside the mutex of its
store. `main` closes under `flag_mutex`, so a supplier that has read `true` has read it before; and
`main` broadcasts under the mutex of the store, so that supplier is asleep by then, or has left the
critical section. Both halves are `Quiet`: behind the broadcast nobody waits at the store, and
nobody is about to. It holds at the broadcast because of who holds the mutex
(`Closing.broadcast_quiets`), and afterwards because the flag stays as it is
(`Quiet.supplier_stays`).

## Why the suppliers return

`remaining` counts the steps of the suppliers and of `main` from the closing on. It does not count
customers: they have returned (`Closed.customer_returned`), or `main` would not have come to close.
That there is always a step to take is an argument about mutexes. They are taken in an order
(`Mutex.rank`), and whoever holds one is `Busy`, so among those that have something to do there is
one that does not wait (`Closed.exists_step`). Spurious wake-ups are steps too, but none that the
argument needs.
-/

namespace Labs
namespace CustomerStore

open Lib

variable {m m' : Shared} {op : SemOp Mutex} {e : Event} {s s' : State}

/-! ## 1. The closing sequence -/

/-- `stores_open` has been set to false. -/
def MainPlace.AfterClose : MainPlace → Prop
  | .unlockFlag | .lock _ | .broadcast _ | .unlock _ | .joinSupplier _ | .returned => True
  | _ => False

/-- The broadcast of store `i` is done. -/
def MainPlace.AfterBroadcast (i : Store) : MainPlace → Prop
  | .lock num | .broadcast num => i < num
  | .unlock num => i ≤ num
  | .joinSupplier _ | .returned => True
  | _ => False

/-- The supplier has the mutex of store `i`, and has found the stores open since it took it. -/
def SupplierPlace.SeenOpen (i : Store) : SupplierPlace → Prop
  | .unlockFlag num _ | .condWait num | .loadGoods num | .storeGoods num _ | .testFull num
  | .broadcast num | .unlock num => num = i
  | _ => False

/-- The suppliers that `main` has created so far. -/
def MainPlace.Launched : MainPlace → Shared → Prop
  | .createCustomer _, _ => True
  | .setGoods k, m | .createSupplier k, m => ∀ j, j < k → m.created (.supplier j) = true
  | _, m => ∀ j, m.created (.supplier j) = true

theorem afterClose_of_afterBroadcast {i : Store} {pc : MainPlace} (h : pc.AfterBroadcast i) :
    pc.AfterClose := by
  cases pc with
  | lock num | broadcast num | unlock num | joinSupplier j | returned => trivial
  | _ => exact absurd h id

/-- What the place of `main` says about the memory. -/
structure MainPlace.Tells (pc : MainPlace) (m : Shared) : Prop where
  closed : pc.AfterClose ↔ m.storesOpen = false
  launched : pc.Launched m

theorem MainPlace.Launched.of_all {pc : MainPlace} (h : ∀ j, m.created (.supplier j) = true) :
    pc.Launched m := by
  cases pc with
  | createCustomer i => trivial
  | setGoods k | createSupplier k => exact fun j _ => h j
  | _ => exact h

theorem MainPlace.Launched.stable {pc : MainPlace} (h : pc.Launched m)
    (hc : m'.created = m.created) : pc.Launched m' := by
  cases pc with
  | createCustomer i => trivial
  | setGoods k | createSupplier k =>
    intro j hj
    rw [hc]
    exact h j hj
  | _ =>
    intro j
    rw [hc]
    exact h j

theorem main_tells {pc pc' : MainPlace} (ht : pc.Tells m)
    (h : mainThread pc m e = some (pc', m', op)) : pc'.Tells m' := by
  obtain ⟨hclosed, hlaunched⟩ := ht
  -- while the stores are open
  have hopen : ¬ pc.AfterClose → ¬ m.storesOpen = false := fun hp hm => hp (hclosed.mpr hm)
  cases pc with
  | createCustomer k =>
    cases e <;> cases h
    have hno := hopen id
    refine ⟨?_, ?_⟩
    · exact following_cases (Q := fun pc : MainPlace => pc.AfterClose ↔ m.storesOpen = false) k
        (fun _ => iff_of_false id hno) fun _ => iff_of_false id hno
    · exact following_cases (Q := fun pc : MainPlace => pc.Launched _) k (fun _ => trivial)
        fun _ j hj => absurd hj (Nat.not_lt_zero _)
  | setGoods k =>
    cases e <;> cases h
    exact ⟨hclosed, hlaunched⟩
  | createSupplier k =>
    cases e <;> cases h
    have hno := hopen id
    have hle : ∀ j, j ≤ k → (m.create (.supplier k)).created (.supplier j) = true := by
      intro j hj
      rcases lt_or_eq_of_le hj with hlt | rfl
      · exact (Leaves.create m .main (.supplier k)).created _ (hlaunched j hlt)
      · exact Function.update_self ..
    refine ⟨?_, ?_⟩
    · exact following_cases (Q := fun pc : MainPlace => pc.AfterClose ↔ m.storesOpen = false) k
        (fun _ => iff_of_false id hno) fun _ => iff_of_false id hno
    · refine following_cases (Q := fun pc : MainPlace => pc.Launched _) k (fun _ => ?_)
        fun hlast => ?_
      · exact fun j hj => hle j (Nat.le_of_lt_succ hj)
      · exact fun j => hle j (Nat.le_of_lt_succ (lt_of_lt_of_eq j.isLt hlast.symm))
  | joinCustomer k =>
    cases e <;> try cases h
    simp only [mainThread] at h
    split at h <;> cases h
    have hno := hopen id
    refine ⟨?_, .of_all hlaunched⟩
    exact following_cases (Q := fun pc : MainPlace => pc.AfterClose ↔ m.storesOpen = false) k
      (fun _ => iff_of_false id hno) fun _ => iff_of_false id hno
  | lockFlag =>
    cases e <;> cases h
    exact ⟨iff_of_false id (hopen id), hlaunched⟩
  | close =>
    cases e <;> cases h
    exact ⟨iff_of_true trivial rfl, hlaunched⟩
  | unlock num =>
    cases e <;> cases h
    have hyes := hclosed.mp trivial
    refine ⟨?_, .of_all hlaunched⟩
    exact following_cases (Q := fun pc : MainPlace => pc.AfterClose ↔ m.storesOpen = false) num
      (fun _ => iff_of_true trivial hyes) fun _ => iff_of_true trivial hyes
  | joinSupplier k =>
    cases e <;> try cases h
    simp only [mainThread] at h
    split at h <;> cases h
    have hyes := hclosed.mp trivial
    refine ⟨?_, .of_all hlaunched⟩
    exact following_cases (Q := fun pc : MainPlace => pc.AfterClose ↔ m.storesOpen = false) k
      (fun _ => iff_of_true trivial hyes) fun _ => iff_of_true trivial hyes
  | _ => cases e <;> cases h <;> exact ⟨hclosed, hlaunched⟩

/-- A broadcast of store `i` was done before, or is done in this step. -/
theorem main_afterBroadcast {i : Store} {pc pc' : MainPlace}
    (h : mainThread pc m e = some (pc', m', op)) (hafter : pc'.AfterBroadcast i) :
    pc.AfterBroadcast i ∨ pc = .broadcast i := by
  revert hafter
  cases pc with
  | createCustomer k =>
    cases e <;> cases h
    exact following_cases (Q := fun pc : MainPlace => pc.AfterBroadcast i → _) k
      (fun _ => False.elim) fun _ => False.elim
  | createSupplier k =>
    cases e <;> cases h
    exact following_cases (Q := fun pc : MainPlace => pc.AfterBroadcast i → _) k
      (fun _ => False.elim) fun _ => False.elim
  | joinCustomer k =>
    cases e <;> try cases h
    simp only [mainThread] at h
    split at h <;> cases h
    exact following_cases (Q := fun pc : MainPlace => pc.AfterBroadcast i → _) k
      (fun _ => False.elim) fun _ => False.elim
  | unlockFlag =>
    cases e <;> cases h
    exact fun hlt => absurd hlt (Nat.not_lt_zero _)
  | broadcast num =>
    cases e <;> cases h
    intro hle
    rcases lt_or_eq_of_le (show i ≤ num from hle) with hlt | rfl
    · exact .inl hlt
    · exact .inr rfl
  | unlock num =>
    cases e <;> cases h
    refine following_cases (Q := fun pc : MainPlace => pc.AfterBroadcast i → _) num
      (fun _ hlt => .inl (Nat.le_of_lt_succ hlt)) fun hlast _ => .inl ?_
    exact Nat.le_of_lt_succ (lt_of_lt_of_eq i.isLt hlast.symm)
  | joinSupplier k =>
    cases e <;> try cases h
    simp only [mainThread] at h
    split at h <;> cases h
    exact fun _ => .inl trivial
  | close =>
    cases e <;> cases h
    exact False.elim
  | _ => cases e <;> cases h <;> exact fun hafter => .inl hafter

/-- A supplier sees the stores open only while they are. -/
theorem supplier_seenOpen {i j : Store} {pc pc' : SupplierPlace}
    (h : supplyStart j pc m e = some (pc', m', op)) (hseen : pc'.SeenOpen i) :
    pc.SeenOpen i ∨ m.storesOpen = true := by
  cases pc with
  | start =>
    cases e <;> try cases h
    simp only [supplyStart] at h
    split at h <;> cases h
    exact hseen.elim
  | testOpen num full =>
    cases e <;> try cases h
    simp only [supplyStart] at h
    split at h <;> cases h
    · rename_i hopen
      exact .inr hopen
    · exact hseen.elim
  | unlockFlag num full => cases full <;> cases e <;> cases h <;> exact .inl hseen
  | testFull num =>
    cases e <;> try cases h
    simp only [supplyStart] at h
    split at h <;> cases h <;> exact .inl hseen
  | asleep num =>
    cases e <;> try cases h
    · simp only [supplyStart] at h
      split at h <;> cases h
      exact hseen.elim
    · exact hseen.elim
  | loadGoods num | storeGoods num goods | broadcast num =>
    cases e <;> cases h
    exact .inl hseen
  | _ => cases e <;> cases h <;> exact hseen.elim

/-- A supplier begins to wait only when it has seen the stores open. -/
theorem supplier_waiting {i j : Store} {pc pc' : SupplierPlace}
    (h : supplyStart j pc m e = some (pc', m', op)) (hseen : ¬ pc.SeenOpen i)
    (hw : m.waiting (.full i) (.supplier j) = false) :
    m'.waiting (.full i) (.supplier j) = false := by
  cases pc with
  | start | testFull num =>
    cases e <;> try cases h
    simp only [supplyStart] at h
    split at h <;> cases h <;> exact hw
  | testOpen num full =>
    cases e <;> try cases h
    simp only [supplyStart] at h
    split at h <;> cases h <;> exact hw
  | unlockFlag num full => cases full <;> cases e <;> cases h <;> exact hw
  | condWait num =>
    cases e <;> cases h
    have hne : Cond.full i ≠ .full num := fun h => hseen (Cond.full.inj h).symm
    show Function.update m.waiting (.full num) _ (.full i) (.supplier j) = false
    rw [Function.update_of_ne hne]
    exact hw
  | asleep num =>
    cases e <;> try cases h
    · simp only [supplyStart] at h
      split at h <;> cases h
      exact hw
    · by_cases hne : num = i
      · subst hne
        exact wake_waiting _ _ _
      · show Function.update m.waiting (.full num) _ (.full i) (.supplier j) = false
        rw [Function.update_of_ne fun h => hne (Cond.full.inj h).symm]
        exact hw
  | broadcast num =>
    cases e <;> cases h
    show Function.update m.waiting (.empty num) (fun _ => false) (.full i) (.supplier j) = false
    rw [Function.update_of_ne (by simp)]
    exact hw
  | _ => cases e <;> cases h <;> exact hw

/-! ## 2. Every run -/

/-- Behind its broadcast a store is quiet: nobody waits at it, and nobody is about to. -/
structure Quiet (s : State) (i : Store) : Prop where
  seen : ∀ j, ¬ SupplierPlace.SeenOpen i (s.pc (.supplier j))
  waiting : ∀ j, s.mem.waiting (.full i) (.supplier j) = false

/-- The invariant of the runs. -/
structure Closing (s : State) : Prop where
  inv : Inv s
  tells : MainPlace.Tells (s.pc .main) s.mem
  quiet : ∀ i, MainPlace.AfterBroadcast i (s.pc .main) → Quiet s i

/-- Nobody is put to sleep by another thread. -/
theorem Leaves.not_waiting {t u : Thread} {cond : Cond} (h : Leaves t m m') (hne : u ≠ t)
    (hw : m.waiting cond u = false) : m'.waiting cond u = false := by
  by_contra hsleeps
  have hbefore := h.woken cond u hne (Bool.eq_true_of_not_eq_false hsleeps)
  rw [hw] at hbefore
  exact Bool.false_ne_true hbefore

theorem held_of_seenOpen {i : Store} {pc : SupplierPlace} (h : pc.SeenOpen i) :
    Mutex.store i ∈ pc.held := by
  cases pc with
  | unlockFlag num full =>
    obtain rfl : num = i := h
    exact Set.mem_insert_of_mem _ rfl
  | condWait num | loadGoods num | storeGoods num goods | testFull num | broadcast num
  | unlock num =>
    obtain rfl : num = i := h
    exact rfl
  | _ => exact absurd h id

theorem closing_init : Closing init :=
  ⟨inv_init, ⟨iff_of_false id (by simp [init]), trivial⟩, fun _ h => absurd h id⟩

/-- `main` has the mutex of the store when it broadcasts, so no supplier is on its way to sleep. -/
theorem Closing.broadcast_quiets {i : Store} {pc : MainPlace} (h : Closing s)
    (hnow : s.pc .main = MainPlace.broadcast i)
    (hnext : mainThread (s.pc .main) s.mem e = some (pc, m, op)) (j : Store) :
    ¬ SupplierPlace.SeenOpen i (s.pc (.supplier j)) ∧ m.waiting (.full i) (.supplier j) = false := by
  constructor
  · intro hseen
    have hmine : Mutex.store i ∈ held .main (s.pc .main) := by
      rw [hnow]
      exact rfl
    cases h.inv.sound.locks.alone .main (.supplier j) _ hmine (held_of_seenOpen hseen)
  · rw [hnow] at hnext
    cases e <;> cases hnext
    show Function.update s.mem.waiting (.full i) _ (.full i) (.supplier j) = false
    rw [Function.update_self]

/-- With the stores closed, a supplier does not come to wait at a quiet one. -/
theorem Quiet.supplier_stays {i k : Store} {pc : SupplierPlace} (h : Quiet s i)
    (hclosed : s.mem.storesOpen = false)
    (hnext : supplyStart k (s.pc (.supplier k)) s.mem e = some (pc, m, op)) :
    ¬ pc.SeenOpen i ∧ m.waiting (.full i) (.supplier k) = false := by
  refine ⟨fun hseen => ?_, supplier_waiting hnext (h.seen k) (h.waiting k)⟩
  rcases supplier_seenOpen hnext hseen with hbefore | hopen
  · exact h.seen k hbefore
  · rw [hclosed] at hopen
    exact Bool.false_ne_true hopen

/-- A supplier that takes no step stays as it is at a quiet store. -/
theorem Quiet.other_stays {t : Thread} {pc : Place t} {i j : Store} (h : Quiet s i)
    (hne : Thread.supplier j ≠ t) (hnext : program t (s.pc t) s.mem e = some (pc, m, op)) :
    ¬ SupplierPlace.SeenOpen i (Function.update s.pc t pc (.supplier j)) ∧
      m.waiting (.full i) (.supplier j) = false := by
  rw [Function.update_of_ne hne]
  exact ⟨h.seen j, (program_leaves hnext).not_waiting hne (h.waiting j)⟩

theorem Quiet.of_each {pc : (t : Thread) → Place t} {sem : Mutex → Int} {i : Store}
    (h : ∀ j, ¬ SupplierPlace.SeenOpen i (pc (.supplier j)) ∧
      m.waiting (.full i) (.supplier j) = false) : Quiet ⟨pc, m, sem⟩ i :=
  ⟨fun j => (h j).1, fun j => (h j).2⟩

/-- Only `main` closes the stores and starts the threads. -/
theorem MainPlace.Tells.of_leavesMain {t : Thread} {pc : MainPlace} (h : pc.Tells m)
    (hsame : LeavesMain t m m') : pc.Tells m' := by
  refine ⟨?_, h.launched.stable hsame.creating⟩
  rw [hsame.keepsOpen]
  exact h.closed

theorem closing_step (s : State) (a : Thread × Event) (s' : State) (h : Closing s)
    (hstep : step s a = some s') : Closing s' := by
  obtain ⟨t, e⟩ := a
  have hinv := inv_step h.inv hstep
  obtain ⟨pc, m, op, sem, hnext, -, rfl⟩ := Sys.step_cases hstep
  by_cases ht : t = .main
  · subst ht
    have hmain : Function.update s.pc .main pc .main = pc := Function.update_self ..
    refine ⟨hinv, ?_, fun i hafter => .of_each fun j => ?_⟩
    · show MainPlace.Tells (Function.update s.pc .main pc .main) m
      rw [hmain]
      exact main_tells h.tells hnext
    · change MainPlace.AfterBroadcast i (Function.update s.pc .main pc .main) at hafter
      rw [hmain] at hafter
      rcases main_afterBroadcast hnext hafter with hbefore | hnow
      · exact (h.quiet i hbefore).other_stays (by simp) hnext
      · rw [Function.update_of_ne (by simp)]
        exact h.broadcast_quiets hnow hnext j
  · have hmain : Function.update s.pc t pc .main = s.pc .main :=
      Function.update_of_ne (fun h => ht h.symm) _ _
    refine ⟨hinv, ?_, fun i hafter => .of_each fun j => ?_⟩
    · show MainPlace.Tells (Function.update s.pc t pc .main) m
      rw [hmain]
      exact h.tells.of_leavesMain (program_leavesMain ht hnext)
    · change MainPlace.AfterBroadcast i (Function.update s.pc t pc .main) at hafter
      rw [hmain] at hafter
      have hquiet := h.quiet i hafter
      by_cases hj : Thread.supplier j = t
      · subst hj
        rw [Function.update_self]
        exact hquiet.supplier_stays (h.tells.closed.mp (afterClose_of_afterBroadcast hafter)) hnext
      · exact hquiet.other_stays hj hnext

/-! ## 3. The suppliers return -/

/-- The steps that a supplier has to take, now that the stores are closed. -/
def SupplierPlace.remaining : SupplierPlace → Nat
  | .unlockFlag _ _ => 15
  | .condWait _ => 14
  | .asleep _ => 13
  | .loadGoods _ => 12
  | .storeGoods _ _ => 11
  | .testFull _ => 10
  | .broadcast _ => 9
  | .start | .unlock _ => 8
  | .choose => 7
  | .lock _ => 6
  | .testGoods _ => 5
  | .lockFlag _ _ => 4
  | .testOpen _ _ => 3
  | .closedFlag _ => 2
  | .closedUnlock _ => 1
  | .returned => 0

/-- Those of `main`, up to the last broadcast. -/
def MainPlace.remaining : MainPlace → Nat
  | .unlockFlag => 3 * STORE_NUM + 1
  | .lock num => 3 * (STORE_NUM - num)
  | .broadcast num => 3 * (STORE_NUM - num) - 1
  | .unlock num => 3 * (STORE_NUM - num) - 2
  | _ => 0

def remaining (s : State) : Nat :=
  MainPlace.remaining (s.pc .main) + ∑ j, SupplierPlace.remaining (s.pc (.supplier j))

theorem supplier_remaining {j : Store} {pc pc' : SupplierPlace} (hclosed : m.storesOpen = false)
    (he : e ≠ .spurious) (h : supplyStart j pc m e = some (pc', m', op)) :
    pc'.remaining < pc.remaining := by
  cases pc with
  | start | testFull num =>
    cases e <;> try cases h
    simp only [supplyStart] at h
    split at h <;> cases h <;> simp [SupplierPlace.remaining]
  | testOpen num full =>
    cases e <;> try cases h
    simp only [supplyStart, hclosed] at h
    cases h
    simp [SupplierPlace.remaining]
  | unlockFlag num full => cases full <;> cases e <;> cases h <;> simp [SupplierPlace.remaining]
  | asleep num =>
    cases e <;> try cases h
    · simp only [supplyStart] at h
      split at h <;> cases h
      simp [SupplierPlace.remaining]
    · exact absurd rfl he
  | _ => cases e <;> cases h <;> simp [SupplierPlace.remaining]

/-- `main` is between closing the stores and its last `pthread_mutex_unlock`. -/
def MainPlace.Sweeping : MainPlace → Prop
  | .unlockFlag | .lock _ | .broadcast _ | .unlock _ => True
  | _ => False

/-- `main` gets nearer to its joins. -/
theorem main_remaining {pc pc' : MainPlace} (hsweeps : pc.Sweeping)
    (h : mainThread pc m e = some (pc', m', op)) : pc'.remaining < pc.remaining := by
  cases pc with
  | unlockFlag =>
    cases e <;> cases h
    simp [MainPlace.remaining, firstStore]
  | lock num | broadcast num =>
    cases e <;> cases h
    have hnum := num.isLt
    simp only [MainPlace.remaining]
    omega
  | unlock num =>
    cases e <;> cases h
    have hnum := num.isLt
    refine following_cases (Q := fun pc : MainPlace => pc.remaining < _) num (fun hlt => ?_)
      fun hlast => ?_
    · simp only [MainPlace.remaining]
      omega
    · simp only [MainPlace.remaining]
      omega
  | _ => exact absurd hsweeps id

def NotSpurious (t : Thread) (_ : Place t) (e : Event) : Prop := e ≠ .spurious

/-- `flag_mutex` is taken inside the mutex of a store, and never the other way round. -/
def Mutex.rank : Mutex → Nat
  | .store _ => 0
  | .flag => 1

theorem program_ordered : Ordered program held Mutex.rank := by
  intro t pc m e pc' m' x h y hy
  cases t with
  | main =>
    change MainPlace at pc
    change mainThread pc m e = _ at h
    cases pc with
    | joinCustomer k | joinSupplier k =>
      cases e <;> try cases h
      simp only [mainThread] at h
      split at h <;> cases h
    | lockFlag | lock num => exact absurd hy id
    | _ => cases e <;> cases h
  | customer i =>
    change CustomerPlace at pc
    change purchaseStart i pc m e = _ at h
    cases pc with
    | start | testDemand | testGoods num | testEmpty num =>
      cases e <;> try cases h
      simp only [purchaseStart] at h
      split at h <;> cases h
    | lock num | asleep num => exact absurd hy id
    | _ => cases e <;> cases h
  | supplier j =>
    change SupplierPlace at pc
    change supplyStart j pc m e = _ at h
    cases pc with
    | start | testOpen num full | testFull num =>
      cases e <;> try cases h
      simp only [supplyStart] at h
      split at h <;> cases h
    | unlockFlag num full => cases full <;> cases e <;> cases h
    | lock num | asleep num => exact absurd hy id
    | lockFlag num full =>
      cases e <;> cases h
      obtain rfl : y = .store num := hy
      exact Nat.one_pos
    | _ => cases e <;> cases h

/-- The threads that have something to do now that the stores are closed. -/
def Busy (s : State) : Thread → Prop
  | .main => MainPlace.Sweeping (s.pc .main)
  | .customer _ => False
  | .supplier j => ¬ SupplierPlace.Idle j (s.pc (.supplier j)) s.mem

/-- The stores are closed, and the customers have gone. -/
structure Closed (s : State) : Prop extends Closing s where
  after : MainPlace.AfterClose (s.pc .main)

theorem Closed.customer_returned (h : Closed s) (i : Customer) :
    s.pc (.customer i) = CustomerPlace.returned := by
  have hmain : MainPlace.Knows (s.pc .main) s.mem := h.inv.sound.knows .main
  have hafter := h.after
  have hall : ∀ i, s.mem.returned (.customer i) = true := by
    generalize s.pc .main = pc at hmain hafter
    change MainPlace at pc
    cases pc with
    | unlockFlag | lock num | broadcast num | unlock num | joinSupplier j | returned => exact hmain
    | _ => exact absurd hafter id
  have hcustomer : CustomerPlace.Knows i (s.pc (.customer i)) s.mem :=
    h.inv.sound.knows (.customer i)
  exact hcustomer.returned (hall i)

theorem Closed.created (h : Closed s) (j : Store) : s.mem.created (.supplier j) = true := by
  have hlaunched := h.tells.launched
  have hafter := h.after
  generalize s.pc .main = pc at hlaunched hafter
  change MainPlace at pc
  cases pc with
  | unlockFlag | lock num | broadcast num | unlock num | joinSupplier k | returned =>
    exact hlaunched j
  | _ => exact absurd hafter id

theorem Closed.busy_moves (h : Closed s) (t : Thread) (hbusy : Busy s t) :
    ∃ e r, NotSpurious t (s.pc t) e ∧ program t (s.pc t) s.mem e = some r := by
  cases t with
  | customer i => exact absurd hbusy id
  | supplier j =>
    obtain ⟨e, r, he, hr, -⟩ := supplier_enabled hbusy (h.created j)
    exact ⟨e, r, he, hr⟩
  | main =>
    change MainPlace.Sweeping (s.pc .main) at hbusy
    show ∃ e r, _ ∧ mainThread (s.pc .main) s.mem e = some r
    generalize s.pc .main = pc at hbusy
    change MainPlace at pc
    cases pc with
    | unlockFlag | lock num | broadcast num | unlock num => exact ⟨.ok, _, by simp [NotSpurious], rfl⟩
    | _ => exact absurd hbusy id

theorem Closed.holder_busy (h : Closed s) (t : Thread) (x : Mutex) (hx : x ∈ held t (s.pc t)) :
    Busy s t := by
  cases t with
  | supplier j => exact (supplier_holder hx).1
  | customer i =>
    rw [h.customer_returned i] at hx
    exact absurd hx id
  | main =>
    have hafter := h.after
    change x ∈ MainPlace.held (s.pc .main) at hx
    show MainPlace.Sweeping (s.pc .main)
    generalize s.pc .main = pc at hx hafter
    change MainPlace at pc
    cases pc with
    | unlockFlag | broadcast num | unlock num => trivial
    | close => exact absurd hafter id
    | _ => exact absurd hx id

/-- A supplier that sleeps is one whose store `main` has not come to. -/
theorem Closed.exists_busy (h : Closed s)
    (hnot : ¬ ∀ j, s.pc (.supplier j) = SupplierPlace.returned) : ∃ t, Busy s t := by
  push Not at hnot
  obtain ⟨j, hj⟩ := hnot
  by_cases hidle : SupplierPlace.Idle j (s.pc (.supplier j)) s.mem
  · refine ⟨.main, ?_⟩
    have hasleep : ∃ i, s.mem.waiting (.full i) (.supplier j) = true := by
      generalize s.pc (.supplier j) = pc at hidle hj
      change SupplierPlace at pc
      cases pc with
      | asleep num => exact ⟨num, hidle⟩
      | returned => exact absurd rfl hj
      | _ => exact absurd hidle id
    obtain ⟨i, hi⟩ := hasleep
    have hbefore : ¬ MainPlace.AfterBroadcast i (s.pc .main) := by
      intro hafter
      rw [(h.quiet i hafter).waiting j] at hi
      exact Bool.false_ne_true hi
    have hafter := h.after
    show MainPlace.Sweeping (s.pc .main)
    generalize s.pc .main = pc at hbefore hafter
    change MainPlace at pc
    cases pc with
    | unlockFlag | lock num | broadcast num | unlock num => trivial
    | joinSupplier k => exact absurd trivial hbefore
    | returned => exact absurd trivial hbefore
    | _ => exact absurd hafter id
  · exact ⟨.supplier j, hidle⟩

/-- **A step that brings the end nearer.** -/
theorem Closed.exists_step (s : State) (h : Closed s)
    (hnot : ¬ ∀ j, s.pc (.supplier j) = SupplierPlace.returned) :
    ∃ a s', True ∧ step s a = some s' ∧ Closed s' ∧ remaining s' < remaining s := by
  obtain ⟨t, ht⟩ := h.exists_busy hnot
  have hlocked : Locked held s := ⟨h.inv.sound.locks, h.inv.owned⟩
  have htop : ∀ x : Mutex, x.rank ≤ 1 := by
    intro x
    cases x <;> simp [Mutex.rank]
  obtain ⟨u, e, s', hu, he, hstep⟩ :=
    hlocked.progress program_ordered htop h.busy_moves h.holder_busy ht
  have hclosing := closing_step s (u, e) s' h.toClosing hstep
  have hopen := h.tells.closed.mp h.after
  obtain ⟨pc, m, op, sem, hnext, -, rfl⟩ := Sys.step_cases hstep
  have hafter : MainPlace.AfterClose (Function.update s.pc u pc .main) :=
    hclosing.tells.closed.mpr ((program_leaves hnext).closed hopen)
  refine ⟨(u, e), _, trivial, hstep, ⟨hclosing, hafter⟩, ?_⟩
  cases u with
  | customer i => exact absurd hu id
  | main =>
    have hless := main_remaining hu hnext
    have hothers : ∀ j, Function.update s.pc .main pc (.supplier j) = s.pc (.supplier j) :=
      fun j => Function.update_of_ne (by simp) _ _
    show MainPlace.remaining (Function.update s.pc .main pc .main) +
      ∑ j, SupplierPlace.remaining (Function.update s.pc .main pc (.supplier j)) < _
    rw [Function.update_self]
    simp only [hothers]
    exact Nat.add_lt_add_right hless _
  | supplier k =>
    have hless := supplier_remaining hopen he hnext
    show MainPlace.remaining (Function.update s.pc (.supplier k) pc .main) +
      ∑ j, SupplierPlace.remaining (Function.update s.pc (.supplier k) pc (.supplier j)) < _
    rw [Function.update_of_ne (by simp)]
    refine Nat.add_lt_add_left (sum_lt_of_moved k (fun j hj => ?_) ?_) _
    · have hne : Thread.supplier j ≠ .supplier k := fun h => hj (Thread.supplier.inj h)
      simp only [Function.update_of_ne hne]
    · simp only [Function.update_self]
      exact hless

/-! ## 4. The shutdown -/

/-- A supplier that has seen the stores closed adds nothing, and goes. -/
theorem supplier_closed {j : Store} {pc pc' : SupplierPlace} (hclosed : pc.Closed)
    (h : supplyStart j pc m e = some (pc', m', op)) : pc'.Closed ∧ m'.goods = m.goods := by
  cases pc with
  | closedFlag num | closedUnlock num =>
    cases e <;> cases h
    exact ⟨trivial, rfl⟩
  | returned => cases e <;> cases h
  | _ => exact absurd hclosed id

/-- Only a supplier that has seen the stores open adds goods to a store. -/
theorem supplier_goods {i j : Store} {pc pc' : SupplierPlace} (hseen : ¬ pc.SeenOpen i)
    (h : supplyStart j pc m e = some (pc', m', op)) : m'.goods i = m.goods i := by
  cases pc with
  | start | testOpen num full | testFull num =>
    cases e <;> try cases h
    simp only [supplyStart] at h
    split at h <;> cases h <;> rfl
  | unlockFlag num full => cases full <;> cases e <;> cases h <;> rfl
  | asleep num =>
    cases e <;> try cases h
    · simp only [supplyStart] at h
      split at h <;> cases h
      rfl
    · rfl
  | storeGoods num goods =>
    cases e <;> cases h
    exact Function.update_of_ne (fun h => hseen h.symm) _ _
  | _ => cases e <;> cases h <;> rfl

def HasSeenClosed (j : Store) (s : State) : Prop := SupplierPlace.Closed (s.pc (.supplier j))

theorem closed_forever {j : Store} (hclosed : HasSeenClosed j s)
    (h : Reaches step (fun _ _ => True) s s') : HasSeenClosed j s' := by
  refine h.invariant hclosed fun t a t' ht _ hstep => ?_
  obtain ⟨u, e⟩ := a
  obtain ⟨pc, m, op, sem, hnext, -, rfl⟩ := Sys.step_cases hstep
  show SupplierPlace.Closed (Function.update t.pc u pc (.supplier j))
  by_cases hu : Thread.supplier j = u
  · subst hu
    rw [Function.update_self]
    exact (supplier_closed ht hnext).1
  · rw [Function.update_of_ne hu]
    exact ht

/-- **No wake-up is lost in the shutdown.** -/
theorem shutdown (h : Reaches step (fun _ _ => True) init s) :
    (∀ i, MainPlace.AfterBroadcast i (s.pc .main) →
      (∀ j, s.mem.waiting (.full i) (.supplier j) = false) ∧
        ∀ j e s', step s (.supplier j, e) = some s' → s'.mem.goods i = s.mem.goods i) ∧
      (∀ j, HasSeenClosed j s →
        ∀ s', Reaches step (fun _ _ => True) s s' →
          ∀ e s'', step s' (.supplier j, e) = some s'' → s''.mem.goods = s'.mem.goods) ∧
      (MainPlace.AfterClose (s.pc .main) →
        ∃ s', Reaches step (fun _ _ => True) s s' ∧
          ∀ j, s'.pc (.supplier j) = SupplierPlace.returned) := by
  have hclosing : Closing s :=
    h.invariant closing_init fun s a s' hs _ hstep => closing_step s a s' hs hstep
  refine ⟨fun i hafter => ⟨(hclosing.quiet i hafter).waiting, ?_⟩, ?_, fun hafter => ?_⟩
  · intro j e s' hstep
    obtain ⟨pc, m, op, sem, hnext, -, rfl⟩ := Sys.step_cases hstep
    exact supplier_goods ((hclosing.quiet i hafter).seen j) hnext
  · intro j hclosed s' hreach e s'' hstep
    obtain ⟨pc, m, op, sem, hnext, -, rfl⟩ := Sys.step_cases hstep
    exact (supplier_closed (closed_forever hclosed hreach) hnext).2
  · obtain ⟨s', hreach, -, hall⟩ :=
      exists_reaches_of_measure remaining Closed.exists_step s ⟨hclosing, hafter⟩
    exact ⟨s', hreach, hall⟩

/-- A day without any demand: `main` closes the stores while the first supplier is asleep at the
    first store, where there are goods. -/
def quietDay : List (Thread × Event) :=
  List.replicate 5 (.main, .drawDemand 0) ++
    [(.main, .drawGoods 1), (.main, .ok), (.main, .drawGoods 1), (.main, .ok),
      (.main, .drawGoods 1), (.main, .ok)] ++
    visit (.supplier firstStore) [.ok] firstStore 6 ++
    (List.finRange 5).flatMap (fun i => List.replicate 2 (Thread.customer i, .ok)) ++
    List.replicate 12 (.main, .ok)

theorem shutdown_quietDay :
    ∃ s : State, run step quietDay init = some s ∧
      s.pc (.supplier firstStore) = SupplierPlace.asleep firstStore ∧
      s.mem.waiting (.full firstStore) (.supplier firstStore) = false ∧
      ∃ s', Reaches step (fun _ _ => True) s s' ∧
        ∀ j, s'.pc (.supplier j) = SupplierPlace.returned := by
  have hrun : ∃ s : State, run step quietDay init = some s ∧
      s.pc (.supplier firstStore) = SupplierPlace.asleep firstStore ∧
      s.pc .main = MainPlace.broadcast 1 := ⟨_, rfl, rfl, rfl⟩
  obtain ⟨s, hs, hsupplier, hmain⟩ := hrun
  have hok : ∀ a ∈ quietDay, ∀ _s : State, True := fun _ _ _ => trivial
  have hshut := shutdown (reaches_of_run hok .start hs)
  rw [hmain] at hshut
  have hafter : MainPlace.AfterBroadcast firstStore (.broadcast 1) := Nat.one_pos
  exact ⟨s, hs, hsupplier, (hshut.1 firstStore hafter).1 firstStore, hshut.2.2 trivial⟩

end CustomerStore
end Labs
