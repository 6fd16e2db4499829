import Labs.CustomerStore.Knowledge
import Mathlib.Tactic.FinCases

/-!
# The stock of a store

A ledger is kept beside the run: what `main` has assigned to a store, and how often it was restocked
and bought from. The goods of a store are what the ledger says as long as nobody but the thread that
has the mutex writes them. `main` assigns the goods without the mutex, while threads are already at
work. That does no harm when the assignment finds the store as it was at the start, and nobody
between the load and the store of its goods (`Timely`).

## The ledger

The claim that goods are neither lost nor made is about a history, and the state has none. So a run
is carried on over an `Account`, a state and the ledger of what has led to it. The ledger is written
by `note`, from the place of the thread and not from the goods: a restock is noted because a thread
stands before the store of a restock, whatever number it stores. That the goods are what the ledger
says is then a theorem (`Accounted`), and not true by definition.

The numbers come from one property of places. Between the load and the store of the goods, what a
thread has loaded is what is there (`Sees`); the mutex of the store keeps it so, against every
thread but `main`. `main` assigns without the mutex. `Timely` says which assignments do no harm. It
is a condition on the state before the step, for each assignment by itself, and `sees_assigned`
shows why it is enough: a customer that has seen goods at this store cannot be there, and a supplier
has seen fewer than `MIN_SUPPLY` and still does.

No sum leaves the range of an `int` (`InRange`), which is proved along with the rest; without it the
balance would hold only up to wrapping.
-/

namespace Labs
namespace CustomerStore

open Lib

variable {m m' : Shared} {op : SemOp Mutex} {e : Event} {s s' : State}

/-! ## 1. The ledger -/

structure Ledger where
  assigned : Store → Int
  restocks : Store → Nat
  purchases : Store → Nat

namespace Ledger

def empty : Ledger := ⟨fun _ => 0, fun _ => 0, fun _ => 0⟩

def assign (l : Ledger) (num : Store) (x : Int) : Ledger :=
  { l with assigned := Function.update l.assigned num x }

def restock (l : Ledger) (num : Store) : Ledger :=
  { l with restocks := Function.update l.restocks num (l.restocks num + 1) }

def purchase (l : Ledger) (num : Store) : Ledger :=
  { l with purchases := Function.update l.purchases num (l.purchases num + 1) }

/-- The goods that there should be. -/
def goods (l : Ledger) (num : Store) : Int :=
  l.assigned num + 500 * l.restocks num - 500 * l.purchases num

theorem goods_restock (l : Ledger) (num : Store) :
    (l.restock num).goods = Function.update l.goods num (l.goods num + 500) := by
  funext num'
  by_cases hn : num' = num
  · subst hn
    simp [goods, restock]
    ring
  · simp [goods, restock, hn]

theorem goods_purchase (l : Ledger) (num : Store) :
    (l.purchase num).goods = Function.update l.goods num (l.goods num - 500) := by
  funext num'
  by_cases hn : num' = num
  · subst hn
    simp [goods, purchase]
    ring
  · simp [goods, purchase, hn]

theorem goods_assign (l : Ledger) {num : Store} (x : Int) (hfresh : l.assigned num = 0)
    (hempty : l.goods num = 0) : (l.assign num x).goods = Function.update l.goods num x := by
  funext num'
  by_cases hn : num' = num
  · subst hn
    simp only [goods, hfresh] at hempty
    simp [goods, assign]
    linarith
  · simp [goods, assign, hn]

end Ledger

/-- What a step from this place adds to the ledger. -/
def CustomerPlace.note : CustomerPlace → Ledger → Ledger
  | .storeGoods num _, l => l.purchase num
  | _, l => l

def SupplierPlace.note : SupplierPlace → Ledger → Ledger
  | .storeGoods num _, l => l.restock num
  | _, l => l

def MainPlace.note : MainPlace → Event → Ledger → Ledger
  | .setGoods num, .drawGoods x, l => l.assign num x.val
  | _, _, l => l

def note (s : State) (a : Thread × Event) (l : Ledger) : Ledger :=
  match a.1 with
  | .main => MainPlace.note (s.pc .main) a.2 l
  | .customer i => CustomerPlace.note (s.pc (.customer i)) l
  | .supplier j => SupplierPlace.note (s.pc (.supplier j)) l

/-- A state, and the ledger of the run that led to it. -/
structure Account where
  state : State
  ledger : Ledger

def Account.init : Account := ⟨CustomerStore.init, .empty⟩

def Account.step (b : Account) (a : Thread × Event) : Option Account :=
  (CustomerStore.step b.state a).map fun s => ⟨s, note b.state a b.ledger⟩

/-- `main` has assigned the goods of the store. -/
def MainPlace.Assigned (num : Store) : MainPlace → Prop
  | .createCustomer _ => False
  | .setGoods j => num < j
  | .createSupplier j => num ≤ j
  | _ => True

/-! ## 2. Between the load and the store -/

/-- The thread has loaded the goods of the store and is about to store them. -/
def CustomerPlace.Storing (num : Store) : CustomerPlace → Prop
  | .storeGoods num' _ => num' = num
  | _ => False

def SupplierPlace.Storing (num : Store) : SupplierPlace → Prop
  | .storeGoods num' _ => num' = num
  | _ => False

def Storing (s : State) (num : Store) : Thread → Prop
  | .main => False
  | .customer i => CustomerPlace.Storing num (s.pc (.customer i))
  | .supplier j => SupplierPlace.Storing num (s.pc (.supplier j))

/-- `main` assigns the goods of a store where nothing is going on. -/
def Timely (s : State) (a : Thread × Event) : Prop :=
  ∀ num x, a = (.main, .drawGoods x) → s.pc .main = MainPlace.setGoods num →
    s.mem.goods num = 0 ∧ (x.val = 0 ∨ ∀ t, ¬ Storing s num t)

/-! ## 3. What a thread knows about the goods -/

/-- A customer has seen goods, and what it has loaded is there. -/
def CustomerPlace.Sees : CustomerPlace → Shared → Prop
  | .loadDemand num, m | .storeDemand num _, m | .loadGoods num, m => 0 < m.goods num
  | .storeGoods num goods, m => goods = m.goods num ∧ 0 < m.goods num
  | _, _ => True

/-- A supplier has seen the store empty. Since then `main` may have given it less than
    `MIN_SUPPLY`. -/
def SupplierPlace.Sees : SupplierPlace → Shared → Prop
  | .lockFlag num false, m | .testOpen num false, m | .unlockFlag num false, m
  | .loadGoods num, m => m.goods num < MIN_SUPPLY
  | .storeGoods num goods, m => goods = m.goods num ∧ m.goods num < MIN_SUPPLY
  | _, _ => True

def Sees : (t : Thread) → Place t → Shared → Prop
  | .main, _, _ => True
  | .customer _, pc, m => CustomerPlace.Sees pc m
  | .supplier _, pc, m => SupplierPlace.Sees pc m

/-- No sum or difference leaves the range of `int`. -/
def InRange (m : Shared) : Prop := ∀ num, -500 < m.goods num ∧ m.goods num < 1000

theorem inRange_setGoods {num : Store} {x : Int} (h : InRange m) (hx : -500 < x ∧ x < 1000) :
    InRange (m.setGoods num x) := by
  intro num'
  show -500 < Function.update m.goods num x num' ∧ Function.update m.goods num x num' < 1000
  by_cases hn : num' = num
  · subst hn
    rw [Function.update_self]
    exact hx
  · rw [Function.update_of_ne hn]
    exact h num'

theorem wrap32_goods {x : Int} (hx : -1000 < x ∧ x < 1500) : wrap32 x = x := by
  refine wrap32_of_inRange ⟨?_, ?_⟩
  · exact le_trans (by decide) (le_of_lt hx.1)
  · exact le_trans (le_of_lt hx.2) (by decide)

/-- **A step of a customer.** -/
theorem customer_sees {i : Customer} {pc pc' : CustomerPlace} (hm : InRange m) (hk : pc.Sees m)
    (h : purchaseStart i pc m e = some (pc', m', op)) : InRange m' ∧ pc'.Sees m' := by
  cases pc with
  | start | testDemand =>
    cases e <;> try cases h
    simp only [purchaseStart] at h
    split at h <;> cases h <;> exact ⟨hm, trivial⟩
  | testGoods num =>
    cases e <;> try cases h
    simp only [purchaseStart] at h
    split at h <;> cases h
    · exact ⟨hm, trivial⟩
    · rename_i hgoods
      exact ⟨hm, not_le.mp hgoods⟩
  | testEmpty num =>
    cases e <;> try cases h
    simp only [purchaseStart] at h
    split at h <;> cases h <;> exact ⟨hm, trivial⟩
  | asleep num =>
    cases e <;> try cases h
    · simp only [purchaseStart] at h
      split at h <;> cases h
      exact ⟨hm, trivial⟩
    · exact ⟨hm, trivial⟩
  | loadDemand num | storeDemand num demand =>
    cases e <;> cases h
    exact ⟨hm, hk⟩
  | loadGoods num =>
    cases e <;> cases h
    exact ⟨hm, rfl, hk⟩
  | storeGoods num goods =>
    cases e <;> cases h
    obtain ⟨rfl, hpos⟩ := hk
    have hmax := (hm num).2
    have hx : wrap32 (m.goods num - 500) = m.goods num - 500 :=
      wrap32_goods ⟨by linarith, by linarith⟩
    rw [hx]
    exact ⟨inRange_setGoods hm ⟨by linarith, by linarith⟩, trivial⟩
  | _ => cases e <;> cases h <;> exact ⟨hm, trivial⟩

theorem supplier_sees {j : Store} {pc pc' : SupplierPlace} (hm : InRange m) (hk : pc.Sees m)
    (h : supplyStart j pc m e = some (pc', m', op)) : InRange m' ∧ pc'.Sees m' := by
  cases pc with
  | start | testFull num =>
    cases e <;> try cases h
    simp only [supplyStart] at h
    split at h <;> cases h <;> exact ⟨hm, trivial⟩
  | testGoods num =>
    cases e <;> cases h
    refine ⟨hm, ?_⟩
    by_cases hgoods : 0 < m.goods num
    · rw [decide_eq_true hgoods]
      trivial
    · rw [decide_eq_false hgoods]
      exact lt_of_le_of_lt (not_lt.mp hgoods) (by decide)
  | lockFlag num full =>
    cases e <;> cases h
    cases full with
    | true => exact ⟨hm, trivial⟩
    | false => exact ⟨hm, hk⟩
  | testOpen num full =>
    cases e <;> try cases h
    simp only [supplyStart] at h
    split at h <;> cases h
    · cases full with
      | true => exact ⟨hm, trivial⟩
      | false => exact ⟨hm, hk⟩
    · exact ⟨hm, trivial⟩
  | unlockFlag num full =>
    cases full with
    | true =>
      cases e <;> cases h
      exact ⟨hm, trivial⟩
    | false =>
      cases e <;> cases h
      exact ⟨hm, hk⟩
  | asleep num =>
    cases e <;> try cases h
    · simp only [supplyStart] at h
      split at h <;> cases h
      exact ⟨hm, trivial⟩
    · exact ⟨hm, trivial⟩
  | loadGoods num =>
    cases e <;> cases h
    exact ⟨hm, rfl, hk⟩
  | storeGoods num goods =>
    cases e <;> cases h
    obtain ⟨rfl, hless⟩ := hk
    have hmin := (hm num).1
    have hless : m.goods num < 500 := hless
    have hx : wrap32 (m.goods num + 500) = m.goods num + 500 :=
      wrap32_goods ⟨by linarith, by linarith⟩
    rw [hx]
    exact ⟨inRange_setGoods hm ⟨by linarith, by linarith⟩, trivial⟩
  | _ => cases e <;> cases h <;> exact ⟨hm, trivial⟩

/-- `main` only writes goods in its loop over the stores. -/
theorem main_goods {pc pc' : MainPlace} (h : mainThread pc m e = some (pc', m', op)) :
    (m'.goods = m.goods ∧ ∀ l, pc.note e l = l) ∨
      ∃ num x, pc = .setGoods num ∧ e = .drawGoods x ∧ pc' = .createSupplier num ∧
        m' = m.setGoods num x.val := by
  cases pc with
  | setGoods num =>
    cases e <;> cases h
    exact .inr ⟨num, _, rfl, rfl, rfl, rfl⟩
  | joinCustomer k | joinSupplier k =>
    cases e <;> try cases h
    simp only [mainThread] at h
    split at h <;> cases h
    exact .inl ⟨rfl, fun _ => rfl⟩
  | _ => cases e <;> cases h <;> exact .inl ⟨rfl, fun _ => rfl⟩

theorem inRange_congr (hm : InRange m) (hgoods : m'.goods = m.goods) : InRange m' := by
  intro num
  rw [hgoods]
  exact hm num

/-- A thread writes the goods of a store only with the mutex of the store. -/
theorem program_goods {t : Thread} {pc pc' : Place t} (ht : t ≠ .main) {num : Store}
    (h : program t pc m e = some (pc', m', op)) (hnot : Mutex.store num ∉ held t pc) :
    m'.goods num = m.goods num := by
  cases t with
  | main => exact absurd rfl ht
  | customer i =>
    change CustomerPlace at pc
    change purchaseStart i pc m e = _ at h
    cases pc with
    | start | testDemand | testGoods num | testEmpty num =>
      cases e <;> try cases h
      simp only [purchaseStart] at h
      split at h <;> cases h <;> rfl
    | asleep num =>
      cases e <;> try cases h
      · simp only [purchaseStart] at h
        split at h <;> cases h
        rfl
      · rfl
    | storeGoods num' goods =>
      cases e <;> cases h
      refine Function.update_of_ne (fun hn => hnot ?_) _ _
      rw [hn]
      exact rfl
    | _ => cases e <;> cases h <;> rfl
  | supplier j =>
    change SupplierPlace at pc
    change supplyStart j pc m e = _ at h
    cases pc with
    | start | testOpen num full | testFull num =>
      cases e <;> try cases h
      simp only [supplyStart] at h
      split at h <;> cases h <;> rfl
    | asleep num =>
      cases e <;> try cases h
      · simp only [supplyStart] at h
        split at h <;> cases h
        rfl
      · rfl
    | unlockFlag num full => cases full <;> cases e <;> cases h <;> rfl
    | storeGoods num' goods =>
      cases e <;> cases h
      refine Function.update_of_ne (fun hn => hnot ?_) _ _
      rw [hn]
      exact rfl
    | _ => cases e <;> cases h <;> rfl

/-! ## 4. What lasts -/

theorem CustomerPlace.Sees.stable {pc : CustomerPlace} (hk : pc.Sees m)
    (hgoods : ∀ num, Mutex.store num ∈ pc.held → m'.goods num = m.goods num) : pc.Sees m' := by
  cases pc with
  | loadDemand num | storeDemand num demand | loadGoods num =>
    show 0 < m'.goods num
    rw [hgoods num rfl]
    exact hk
  | storeGoods num goods =>
    show goods = m'.goods num ∧ 0 < m'.goods num
    rw [hgoods num rfl]
    exact hk
  | _ => trivial

theorem SupplierPlace.Sees.stable {pc : SupplierPlace} (hk : pc.Sees m)
    (hgoods : ∀ num, Mutex.store num ∈ pc.held → m'.goods num = m.goods num) : pc.Sees m' := by
  cases pc with
  | lockFlag num full =>
    cases full with
    | true => trivial
    | false =>
      show m'.goods num < MIN_SUPPLY
      rw [hgoods num rfl]
      exact hk
  | testOpen num full | unlockFlag num full =>
    cases full with
    | true => trivial
    | false =>
      show m'.goods num < MIN_SUPPLY
      rw [hgoods num (Set.mem_insert_of_mem _ rfl)]
      exact hk
  | loadGoods num =>
    show m'.goods num < MIN_SUPPLY
    rw [hgoods num rfl]
    exact hk
  | storeGoods num goods =>
    show goods = m'.goods num ∧ m'.goods num < MIN_SUPPLY
    rw [hgoods num rfl]
    exact hk
  | _ => trivial

theorem sees_stable {u : Thread} {pc : Place u} (hk : Sees u pc m)
    (hgoods : ∀ num, Mutex.store num ∈ held u pc → m'.goods num = m.goods num) :
    Sees u pc m' := by
  cases u with
  | main => trivial
  | customer i => exact CustomerPlace.Sees.stable hk hgoods
  | supplier j => exact SupplierPlace.Sees.stable hk hgoods

/-- An empty store gets goods from `main`, and nobody is storing any. -/
theorem CustomerPlace.Sees.assigned {pc : CustomerPlace} {num : Store} {x : Int}
    (hk : pc.Sees m) (hempty : m.goods num = 0) : pc.Sees (m.setGoods num x) := by
  -- whoever has seen goods is at another store
  have hother : ∀ num', 0 < m.goods num' → (m.setGoods num x).goods num' = m.goods num' := by
    intro num' hpos
    refine Function.update_of_ne (fun hn => ?_) _ _
    rw [hn, hempty] at hpos
    exact lt_irrefl 0 hpos
  cases pc with
  | loadDemand num' | storeDemand num' demand | loadGoods num' =>
    show 0 < (m.setGoods num x).goods num'
    rw [hother num' hk]
    exact hk
  | storeGoods num' goods =>
    show goods = (m.setGoods num x).goods num' ∧ 0 < (m.setGoods num x).goods num'
    rw [hother num' hk.2]
    exact hk
  | _ => trivial

theorem SupplierPlace.Sees.assigned {pc : SupplierPlace} {num : Store} {x : Int}
    (hk : pc.Sees m) (hx : x < MIN_SUPPLY) (hnot : ¬ pc.Storing num) :
    pc.Sees (m.setGoods num x) := by
  have hless : ∀ num', m.goods num' < MIN_SUPPLY → (m.setGoods num x).goods num' < MIN_SUPPLY := by
    intro num' hn
    show Function.update m.goods num x num' < MIN_SUPPLY
    by_cases h : num' = num
    · subst h
      rw [Function.update_self]
      exact hx
    · rw [Function.update_of_ne h]
      exact hn
  cases pc with
  | lockFlag num' full | testOpen num' full | unlockFlag num' full =>
    cases full with
    | true => trivial
    | false => exact hless num' hk
  | loadGoods num' => exact hless num' hk
  | storeGoods num' goods =>
    have hne : num' ≠ num := fun h => hnot h
    refine ⟨?_, hless num' hk.2⟩
    show goods = Function.update m.goods num x num'
    rw [Function.update_of_ne hne]
    exact hk.1
  | _ => trivial

/-- **An assignment in time** takes nobody by surprise. -/
theorem sees_assigned {num : Store} {x : Fin MIN_SUPPLY} {u : Thread}
    (hk : Sees u (s.pc u) s.mem) (hempty : s.mem.goods num = 0)
    (hquiet : x.val = 0 ∨ ∀ t, ¬ Storing s num t) :
    Sees u (s.pc u) (s.mem.setGoods num x.val) := by
  rcases hquiet with hzero | hnobody
  · -- nothing changes
    refine sees_stable hk fun num' _ => ?_
    show Function.update s.mem.goods num (x.val : Int) num' = s.mem.goods num'
    by_cases hn : num' = num
    · subst hn
      rw [Function.update_self, hempty, hzero]
      rfl
    · rw [Function.update_of_ne hn]
  · cases u with
    | main => trivial
    | customer i => exact CustomerPlace.Sees.assigned hk hempty
    | supplier j =>
      refine SupplierPlace.Sees.assigned hk ?_ (hnobody (.supplier j))
      exact_mod_cast x.isLt

/-! ## 5. The account -/

theorem customer_account {i : Customer} {pc pc' : CustomerPlace} {l : Ledger} (hm : InRange m)
    (hk : pc.Sees m) (hl : m.goods = l.goods)
    (h : purchaseStart i pc m e = some (pc', m', op)) : m'.goods = (pc.note l).goods := by
  cases pc with
  | start | testDemand | testGoods num | testEmpty num =>
    cases e <;> try cases h
    simp only [purchaseStart] at h
    split at h <;> cases h <;> exact hl
  | asleep num =>
    cases e <;> try cases h
    · simp only [purchaseStart] at h
      split at h <;> cases h
      exact hl
    · exact hl
  | storeGoods num goods =>
    cases e <;> cases h
    obtain ⟨rfl, hpos⟩ := hk
    have hmax := (hm num).2
    show Function.update m.goods num (wrap32 (m.goods num - 500)) = (l.purchase num).goods
    rw [wrap32_goods ⟨by linarith, by linarith⟩, l.goods_purchase, hl]
  | _ => cases e <;> cases h <;> exact hl

theorem supplier_account {j : Store} {pc pc' : SupplierPlace} {l : Ledger} (hm : InRange m)
    (hk : pc.Sees m) (hl : m.goods = l.goods)
    (h : supplyStart j pc m e = some (pc', m', op)) : m'.goods = (pc.note l).goods := by
  cases pc with
  | start | testOpen num full | testFull num =>
    cases e <;> try cases h
    simp only [supplyStart] at h
    split at h <;> cases h <;> exact hl
  | asleep num =>
    cases e <;> try cases h
    · simp only [supplyStart] at h
      split at h <;> cases h
      exact hl
    · exact hl
  | unlockFlag num full => cases full <;> cases e <;> cases h <;> exact hl
  | storeGoods num goods =>
    cases e <;> cases h
    obtain ⟨rfl, hless⟩ := hk
    have hmin := (hm num).1
    have hless : m.goods num < 500 := hless
    show Function.update m.goods num (wrap32 (m.goods num + 500)) = (l.restock num).goods
    rw [wrap32_goods ⟨by linarith, by linarith⟩, l.goods_restock, hl]
  | _ => cases e <;> cases h <;> exact hl

/-- What `main` has assigned stays assigned. -/
theorem main_assigned {num : Store} {pc pc' : MainPlace} (hassigned : pc.Assigned num)
    (h : mainThread pc m e = some (pc', m', op)) : pc'.Assigned num := by
  cases pc with
  | createCustomer k => exact hassigned.elim
  | setGoods k =>
    cases e <;> cases h
    exact le_of_lt hassigned
  | createSupplier k =>
    cases e <;> cases h
    exact following_cases (Q := fun pc : MainPlace => pc.Assigned num) k
      (fun _ => Nat.lt_succ_of_le hassigned) fun _ => trivial
  | joinCustomer k | joinSupplier k =>
    cases e <;> try cases h
    simp only [mainThread] at h
    split at h <;> cases h
    exact following_cases (Q := fun pc : MainPlace => pc.Assigned num) k (fun _ => trivial)
      fun _ => trivial
  | unlock k =>
    cases e <;> cases h
    exact following_cases (Q := fun pc : MainPlace => pc.Assigned num) k (fun _ => trivial)
      fun _ => trivial
  | _ => cases e <;> cases h <;> exact trivial

/-- The goods are in the ledger, and it has no assignment that is still to come. -/
structure Accounted (b : Account) : Prop where
  sound : Sound held InRange Sees b.state
  balance : b.state.mem.goods = b.ledger.goods
  fresh : ∀ num, ¬ MainPlace.Assigned num (b.state.pc .main) → b.ledger.assigned num = 0

theorem accounted_init : Accounted .init := by
  refine ⟨⟨.initial (fun t => ?_) fun _ => rfl, fun num => ?_, fun t => ?_⟩, ?_, fun _ _ => rfl⟩
  · cases t <;> rfl
  · exact ⟨neg_lt_zero.mpr (by norm_num), Int.ofNat_lt.mpr (by norm_num)⟩
  · cases t <;> exact trivial
  · funext num
    simp [Account.init, init, Ledger.empty, Ledger.goods]

theorem CustomerPlace.note_assigned (pc : CustomerPlace) (l : Ledger) :
    (pc.note l).assigned = l.assigned := by cases pc <;> rfl

theorem SupplierPlace.note_assigned (pc : SupplierPlace) (l : Ledger) :
    (pc.note l).assigned = l.assigned := by cases pc <;> rfl

/-- **What a thread other than `main` does** is in the ledger. -/
theorem Accounted.thread_step {b : Account} {t : Thread} (h : Accounted b) (ht : t ≠ .main)
    (hstep : step b.state (t, e) = some s') : Accounted ⟨s', note b.state (t, e) b.ledger⟩ := by
  have hown : ∀ pc m op, program t (b.state.pc t) b.state.mem e = some (pc, m, op) →
      InRange m ∧ Sees t pc m := by
    intro pc m op hnext
    cases t with
    | main => exact absurd rfl ht
    | customer i => exact customer_sees h.sound.mem (h.sound.knows (.customer i)) hnext
    | supplier j => exact supplier_sees h.sound.mem (h.sound.knows (.supplier j)) hnext
  have hsound : Sound held InRange Sees s' := by
    refine h.sound.step program_disciplined hown (fun u pc m op _ hnext hapart hknows => ?_) hstep
    -- what `u` has seen is the goods of the stores that it holds
    refine sees_stable hknows fun num hheld => ?_
    exact program_goods ht hnext fun hx => hapart _ hx hheld
  obtain ⟨pc, m, op, sem, hnext, -, rfl⟩ := Sys.step_cases hstep
  refine ⟨hsound, ?_, fun num hnot => ?_⟩
  · cases t with
    | main => exact absurd rfl ht
    | customer i =>
      exact customer_account h.sound.mem (h.sound.knows (.customer i)) h.balance hnext
    | supplier j =>
      exact supplier_account h.sound.mem (h.sound.knows (.supplier j)) h.balance hnext
  · have hbefore : ¬ MainPlace.Assigned num (b.state.pc .main) := by
      change ¬ MainPlace.Assigned num (Function.update b.state.pc t pc .main) at hnot
      rw [Function.update_of_ne ht.symm] at hnot
      exact hnot
    cases t with
    | main => exact absurd rfl ht
    | customer i =>
      show (CustomerPlace.note _ b.ledger).assigned num = 0
      rw [CustomerPlace.note_assigned]
      exact h.fresh num hbefore
    | supplier j =>
      show (SupplierPlace.note _ b.ledger).assigned num = 0
      rw [SupplierPlace.note_assigned]
      exact h.fresh num hbefore

/-- **An assignment in time** is in the ledger. -/
theorem Accounted.main_step {b : Account} (h : Accounted b) (htimely : Timely b.state (.main, e))
    (hstep : step b.state (.main, e) = some s') :
    Accounted ⟨s', note b.state (.main, e) b.ledger⟩ := by
  have hafter : ∀ pc m op, program .main (b.state.pc .main) b.state.mem e = some (pc, m, op) →
      InRange m ∧ ∀ u, Sees u (b.state.pc u) m := by
    intro pc m op hnext
    rcases main_goods hnext with ⟨hgoods, -⟩ | ⟨num, x, hpc, rfl, -, rfl⟩
    · exact ⟨inRange_congr h.sound.mem hgoods, fun u =>
        sees_stable (h.sound.knows u) fun num _ => by rw [hgoods]⟩
    · obtain ⟨hempty, hquiet⟩ := htimely num x rfl hpc
      have hx : (x.val : Int) < 500 := by exact_mod_cast x.isLt
      exact ⟨inRange_setGoods h.sound.mem ⟨by linarith, by linarith⟩,
        fun u => sees_assigned (h.sound.knows u) hempty hquiet⟩
  have hsound : Sound held InRange Sees s' := by
    refine h.sound.step (p := .main) (e := e) program_disciplined (fun pc m op hnext => ?_)
      (fun u pc m op _ hnext _ _ => (hafter pc m op hnext).2 u) hstep
    exact ⟨(hafter pc m op hnext).1, trivial⟩
  obtain ⟨pc, m, op, sem, hnext, -, rfl⟩ := Sys.step_cases hstep
  have hbefore : ∀ num, ¬ MainPlace.Assigned num (Function.update b.state.pc .main pc .main) →
      ¬ MainPlace.Assigned num (b.state.pc .main) := by
    intro num hnot hassigned
    rw [Function.update_self] at hnot
    exact hnot (main_assigned hassigned hnext)
  rcases main_goods hnext with ⟨hgoods, hnote⟩ | ⟨num, x, hpc, rfl, rfl, rfl⟩
  · refine ⟨hsound, ?_, fun num hnot => ?_⟩
    · show m.goods = (MainPlace.note (b.state.pc .main) e b.ledger).goods
      rw [hgoods, hnote]
      exact h.balance
    · show (MainPlace.note (b.state.pc .main) e b.ledger).assigned num = 0
      rw [hnote]
      exact h.fresh num (hbefore num hnot)
  · have hnote : note b.state (.main, .drawGoods x) b.ledger = b.ledger.assign num x.val := by
      show MainPlace.note (b.state.pc .main) _ _ = _
      rw [hpc]
      rfl
    have hfresh : b.ledger.assigned num = 0 := by
      refine h.fresh num fun hassigned => ?_
      rw [hpc] at hassigned
      exact lt_irrefl num hassigned
    have hempty : b.ledger.goods num = 0 := by
      rw [← h.balance]
      exact (htimely num x rfl hpc).1
    refine ⟨hsound, ?_, fun num' hnot => ?_⟩
    · show Function.update b.state.mem.goods num (x.val : Int) = (note b.state _ b.ledger).goods
      rw [hnote, b.ledger.goods_assign _ hfresh hempty, h.balance]
    · have hfresh' := h.fresh num' (hbefore num' hnot)
      have hne : num' ≠ num := by
        rintro rfl
        refine hnot ?_
        show MainPlace.Assigned num' (Function.update b.state.pc .main _ .main)
        rw [Function.update_self]
        exact le_refl num'
      show (note b.state _ b.ledger).assigned num' = 0
      rw [hnote]
      show Function.update b.ledger.assigned num (x.val : Int) num' = 0
      rw [Function.update_of_ne hne]
      exact hfresh'

/-- **The goods are accounted for**: if `main` assigns the goods of a store only while the store is
    as empty as it was at the start, and nobody is about to store goods there, then the goods of
    every store are what `main` assigned, and 500 more for every restock, and 500 less for every
    purchase. -/
theorem stock_accounts {b : Account}
    (h : Reaches Account.step (fun b a => Timely b.state a) Account.init b) (num : Store) :
    b.state.mem.goods num =
      b.ledger.assigned num + 500 * b.ledger.restocks num - 500 * b.ledger.purchases num := by
  have hinv : Accounted b := by
    refine h.invariant accounted_init fun b a b' hb hok hstep => ?_
    obtain ⟨t, e⟩ := a
    obtain ⟨s', hs', rfl⟩ := Option.map_eq_some_iff.mp hstep
    by_cases ht : t = .main
    · subst ht
      exact hb.main_step hok hs'
    · exact hb.thread_step ht hs'
  exact congrFun hinv.balance num

/-- The first supplier is sent to the second store, which is empty, and supplies it. -/
def firstSupply : List (Thread × Event) :=
  [(.supplier firstStore, .ok), (.supplier firstStore, .pick 1)] ++
    List.replicate 10 (.supplier firstStore, .ok)

theorem timely_of_ne {a : Thread × Event} (ha : ∀ x, a ≠ (.main, .drawGoods x)) : Timely s a :=
  fun _ x h => absurd h (ha x)

theorem timely_of_empty (x : Fin MIN_SUPPLY) (hempty : ∀ num, s.mem.goods num = 0)
    (hcustomers : ∀ i, s.pc (.customer i) = CustomerPlace.start)
    (hsuppliers : ∀ j, s.pc (.supplier j) = SupplierPlace.start) :
    Timely s (.main, .drawGoods x) := by
  refine fun num _ _ _ => ⟨hempty num, .inr fun t hstoring => ?_⟩
  cases t with
  | main => exact hstoring
  | customer i =>
    rw [Storing, hcustomers i] at hstoring
    exact hstoring
  | supplier j =>
    rw [Storing, hsuppliers j] at hstoring
    exact hstoring

/-- The supplier comes when `main` has gone on to the third store. -/
theorem stock_accounts_firstSupply :
    ∃ b : Account, Reaches Account.step (fun b a => Timely b.state a) Account.init b ∧
      b.ledger.restocks 1 = 1 ∧ b.state.mem.goods 1 =
        b.ledger.assigned 1 + 500 * b.ledger.restocks 1 - 500 * b.ledger.purchases 1 := by
  have hcustomers : ∀ a ∈ List.replicate 5 (Thread.main, Event.drawDemand 0), ∀ b : Account,
      Timely b.state a := by
    intro a ha b
    rw [List.eq_of_mem_replicate ha]
    exact timely_of_ne nofun
  have hsupply : ∀ a ∈ firstSupply, ∀ b : Account, Timely b.state a := by
    intro a ha b
    refine timely_of_ne fun x hx => ?_
    subst hx
    simp [firstSupply, firstStore] at ha
  have hcreated : Reaches Account.step (fun b a => Timely b.state a) Account.init _ :=
    reaches_of_run hcustomers .start rfl
  have hfirst := hcreated.next (a := (.main, .drawGoods 0))
    (timely_of_empty 0 (fun _ => rfl) (fun _ => rfl) fun _ => rfl) rfl
  have hsecond := (hfirst.next (a := (.main, .ok)) (timely_of_ne nofun) rfl).next
    (a := (.main, .drawGoods 0))
    (timely_of_empty 0 (fun num => by fin_cases num <;> rfl) (fun _ => rfl) fun _ => rfl) rfl
  have hreach := reaches_of_run hsupply hsecond rfl
  exact ⟨_, hreach, rfl, stock_accounts hreach 1⟩

/-- The first supplier comes while `main` is still at the second store. -/
def earlySupply : List (Thread × Event) :=
  List.replicate 5 (.main, .drawDemand 0) ++ [(.main, .drawGoods 0), (.main, .ok)] ++
    firstSupply ++
    [(.main, .drawGoods 100), (.main, .ok), (.main, .drawGoods 0), (.main, .ok)]

/-- `main` assigns the goods of the second store after the supplier has been there, and the 500 that
    it brought are gone. -/
theorem supply_overwritten :
    ∃ b, run Account.step earlySupply Account.init = some b ∧
      (∀ num, MainPlace.Assigned num (b.state.pc .main)) ∧
      (∀ t, held t (b.state.pc t) = ∅) ∧
      b.ledger.assigned 1 = 100 ∧ b.ledger.restocks 1 = 1 ∧ b.ledger.purchases 1 = 0 ∧
      b.state.mem.goods 1 = 100 := by
  refine ⟨_, rfl, fun _ => trivial, fun t => ?_, rfl, rfl, rfl, rfl⟩
  cases t with
  | main => rfl
  | customer i => fin_cases i <;> rfl
  | supplier j => fin_cases j <;> rfl

end CustomerStore
end Labs
