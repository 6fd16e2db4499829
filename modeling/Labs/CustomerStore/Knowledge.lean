import Labs.CustomerStore.Program

/-!
# Mutexes and what the threads know

The mutex of a store is held from the first test of its goods to the `unlock`, but not while the
thread waits; `flag_mutex` is taken inside it by a supplier, and alone by `main`. Nobody takes the
two in the other order.

A customer that is still shopping has demand left, and it is the only one that changes its demand
after `main` has created it. The stores close when all customers have returned. Together: as long
as a customer has demand left, `main` has taken no mutex (`main_holds_nothing`) and no supplier has
returned.

## Who knows what, and why it lasts

Knowledge is attached to places. A place stands before one access, so what a thread has read is in
the place (`storeDemand num demand`), and what follows from it lasts as long as nobody else changes
what was read. For each fact it is said once why nobody does.

* The demand of a customer is its own: `main` writes it before it creates the customer, and no other
  thread writes it at all (`LeavesMain`, `main_demand`).
* The goods are protected by the mutex of the store. Here it is only said who holds which mutex
  (`held`, `program_disciplined`); what is known of the goods is the subject of `Stock` and
  `Levels`.
* `stores_open` changes once, so whoever has seen it false may rely on it (`SupplierPlace.Closed`).

`Leaves` is what all this is stable under: a thread once created stays created, stores once closed
stay closed, and a thread is put among the waiting ones by nobody but itself. It is proved once for
each kind of thread, and from then on the stability of what a thread knows needs no cases over the
thread that moves (`knows_stable`).

The invariant of this module says nothing about the numbers in a store. The modules behind it each
add their own to it, and use `Sound` and `Owned` from here.
-/

namespace Labs
namespace CustomerStore

open Lib

variable {m m' : Shared} {op : SemOp Mutex} {e : Event}

/-! ## 1. Mutexes -/

def CustomerPlace.held : CustomerPlace → Set Mutex
  | .testGoods num | .condWait num | .loadDemand num | .storeDemand num _ | .loadGoods num
  | .storeGoods num _ | .testEmpty num | .broadcast num | .unlock num => {.store num}
  | .start | .testDemand | .choose | .lock _ | .asleep _ | .returned => ∅

def SupplierPlace.held : SupplierPlace → Set Mutex
  | .testGoods num | .lockFlag num _ | .condWait num | .loadGoods num | .storeGoods num _
  | .testFull num | .broadcast num | .unlock num | .closedUnlock num => {.store num}
  | .testOpen num _ | .unlockFlag num _ | .closedFlag num => {.flag, .store num}
  | .start | .choose | .lock _ | .asleep _ | .returned => ∅

def MainPlace.held : MainPlace → Set Mutex
  | .close | .unlockFlag => {.flag}
  | .broadcast num | .unlock num => {.store num}
  | .createCustomer _ | .setGoods _ | .createSupplier _ | .joinCustomer _ | .lockFlag | .lock _
  | .joinSupplier _ | .returned => ∅

def held : (t : Thread) → Place t → Set Mutex
  | .main, pc => MainPlace.held pc
  | .customer _, pc => CustomerPlace.held pc
  | .supplier _, pc => SupplierPlace.held pc

theorem customer_keeps {i : Customer} {pc pc' : CustomerPlace}
    (h : purchaseStart i pc m e = some (pc', m', op)) : op.Keeps pc.held pc'.held := by
  cases pc with
  | start | testDemand =>
    cases e <;> try cases h
    simp only [purchaseStart] at h
    split at h <;> cases h <;> exact SemOp.keeps_skip _
  | testGoods num | testEmpty num =>
    cases e <;> try cases h
    simp only [purchaseStart] at h
    split at h <;> cases h <;> exact SemOp.keeps_skip _
  | lock num =>
    cases e <;> cases h
    exact SemOp.keeps_wait _
  | condWait num | unlock num =>
    cases e <;> cases h
    exact SemOp.keeps_post _
  | asleep num =>
    cases e <;> try cases h
    · simp only [purchaseStart] at h
      split at h <;> cases h
      exact SemOp.keeps_wait _
    · exact SemOp.keeps_skip _
  | _ => cases e <;> cases h <;> exact SemOp.keeps_skip _

/-- Inside the mutex of a store, `flag_mutex` is acquired and released again. -/
theorem keeps_wait_flag (num : Store) :
    (SemOp.wait Mutex.flag).Keeps {Mutex.store num} {Mutex.flag, Mutex.store num} := ⟨rfl, nofun⟩

theorem keeps_post_flag (num : Store) :
    (SemOp.post Mutex.flag).Keeps {Mutex.flag, Mutex.store num} {Mutex.store num} := by
  refine ⟨⟨Set.mem_insert _ _, ?_⟩, nofun⟩
  ext x
  constructor
  · intro hx
    have hx : x = .store num := hx
    subst hx
    exact ⟨Set.mem_insert_of_mem _ rfl, Mutex.noConfusion⟩
  · rintro ⟨hx | hx, hne⟩
    · exact absurd hx hne
    · exact hx

theorem supplier_keeps {j : Store} {pc pc' : SupplierPlace}
    (h : supplyStart j pc m e = some (pc', m', op)) : op.Keeps pc.held pc'.held := by
  cases pc with
  | start | testFull num =>
    cases e <;> try cases h
    simp only [supplyStart] at h
    split at h <;> cases h <;> exact SemOp.keeps_skip _
  | testOpen num full =>
    cases e <;> try cases h
    simp only [supplyStart] at h
    split at h <;> cases h <;> exact SemOp.keeps_skip _
  | lock num =>
    cases e <;> cases h
    exact SemOp.keeps_wait _
  | lockFlag num full =>
    cases e <;> cases h
    exact keeps_wait_flag num
  | unlockFlag num full =>
    cases full <;> cases e <;> cases h <;> exact keeps_post_flag num
  | closedFlag num =>
    cases e <;> cases h
    exact keeps_post_flag num
  | condWait num | unlock num | closedUnlock num =>
    cases e <;> cases h
    exact SemOp.keeps_post _
  | asleep num =>
    cases e <;> try cases h
    · simp only [supplyStart] at h
      split at h <;> cases h
      exact SemOp.keeps_wait _
    · exact SemOp.keeps_skip _
  | _ => cases e <;> cases h <;> exact SemOp.keeps_skip _

/-- What comes of a loop, if it comes of every turn and of what is behind the loop. -/
theorem following_cases {n : Nat} {α : Type} {Q : α → Prop} (i : Fin n) {turn : Fin n → α}
    {after : α} (hturn : ∀ h : i.val + 1 < n, Q (turn ⟨i.val + 1, h⟩))
    (hafter : i.val + 1 = n → Q after) : Q (following i turn after) := by
  unfold following
  split
  · rename_i h
    exact hturn h
  · rename_i h
    exact hafter (le_antisymm i.isLt (not_lt.mp h))

theorem main_keeps {pc pc' : MainPlace} (h : mainThread pc m e = some (pc', m', op)) :
    op.Keeps pc.held pc'.held := by
  cases pc with
  | createCustomer i =>
    cases e <;> cases h
    exact following_cases (Q := fun pc : MainPlace => SemOp.Keeps .skip ∅ pc.held) i
      (fun _ => SemOp.keeps_skip _) fun _ => SemOp.keeps_skip _
  | createSupplier j =>
    cases e <;> cases h
    exact following_cases (Q := fun pc : MainPlace => SemOp.Keeps .skip ∅ pc.held) j
      (fun _ => SemOp.keeps_skip _) fun _ => SemOp.keeps_skip _
  | joinCustomer i =>
    cases e <;> try cases h
    simp only [mainThread] at h
    split at h <;> cases h
    exact following_cases (Q := fun pc : MainPlace => SemOp.Keeps .skip ∅ pc.held) i
      (fun _ => SemOp.keeps_skip _) fun _ => SemOp.keeps_skip _
  | joinSupplier j =>
    cases e <;> try cases h
    simp only [mainThread] at h
    split at h <;> cases h
    exact following_cases (Q := fun pc : MainPlace => SemOp.Keeps .skip ∅ pc.held) j
      (fun _ => SemOp.keeps_skip _) fun _ => SemOp.keeps_skip _
  | unlock num =>
    cases e <;> cases h
    exact following_cases (Q := fun pc : MainPlace => (SemOp.post _).Keeps {Mutex.store num} pc.held) num
      (fun _ => SemOp.keeps_post _) fun _ => SemOp.keeps_post _
  | lockFlag | lock num =>
    cases e <;> cases h
    exact SemOp.keeps_wait _
  | unlockFlag =>
    cases e <;> cases h
    exact SemOp.keeps_post _
  | _ => cases e <;> cases h <;> exact SemOp.keeps_skip _

theorem program_keeps {t : Thread} {pc pc' : Place t}
    (h : program t pc m e = some (pc', m', op)) : op.Keeps (held t pc) (held t pc') := by
  cases t with
  | main => exact main_keeps h
  | customer i => exact customer_keeps h
  | supplier j => exact supplier_keeps h

theorem program_disciplined : Disciplined program held :=
  fun _ _ _ _ _ _ _ h => (program_keeps h).1

/-! ## 2. What a step leaves -/

/-- What every step of `t` leaves of the threads and the stores. -/
structure Leaves (t : Thread) (m m' : Shared) : Prop where
  created : ∀ u, m.created u = true → m'.created u = true
  closed : m.storesOpen = false → m'.storesOpen = false
  returned : ∀ u, m.returned u = true → m'.returned u = true
  running : ∀ u, u ≠ t → m'.returned u = m.returned u
  woken : ∀ cond u, u ≠ t → m'.waiting cond u = true → m.waiting cond u = true

/-- What a step of a customer or supplier leaves besides. -/
structure LeavesMain (t : Thread) (m m' : Shared) : Prop extends Leaves t m m' where
  creating : m'.created = m.created
  keepsOpen : m'.storesOpen = m.storesOpen
  demand : ∀ i, t ≠ .customer i → m'.demand i = m.demand i

theorem LeavesMain.refl (t : Thread) (m : Shared) : LeavesMain t m m :=
  ⟨⟨fun _ h => h, fun h => h, fun _ h => h, fun _ _ => rfl, fun _ _ _ h => h⟩, rfl, rfl,
    fun _ _ => rfl⟩

/-- A change of the goods. -/
theorem LeavesMain.setGoods (t : Thread) (m : Shared) (num : Store) (x : Int) :
    LeavesMain t m (m.setGoods num x) :=
  ⟨⟨fun _ h => h, fun h => h, fun _ h => h, fun _ _ => rfl, fun _ _ _ h => h⟩, rfl, rfl,
    fun _ _ => rfl⟩

theorem LeavesMain.setDemand (m : Shared) (i : Customer) (x : Int) :
    LeavesMain (.customer i) m (m.setDemand i x) :=
  ⟨⟨fun _ h => h, fun h => h, fun _ h => h, fun _ _ => rfl, fun _ _ _ h => h⟩, rfl, rfl,
    fun _ hne => Function.update_of_ne (fun e => hne (congrArg Thread.customer e.symm)) _ _⟩

/-- A change of one set of waiting threads, in which only `t` is new. -/
theorem LeavesMain.setWaiting {t : Thread} {m : Shared} {cond : Cond} {ts : Thread → Bool}
    (hts : ∀ u, u ≠ t → ts u = true → m.waiting cond u = true) :
    LeavesMain t m (m.setWaiting cond ts) := by
  refine ⟨⟨fun _ h => h, fun h => h, fun _ h => h, fun _ _ => rfl, fun cond' u hu h => ?_⟩,
    rfl, rfl, fun _ _ => rfl⟩
  by_cases hc : cond' = cond
  · subst hc
    have h : Function.update m.waiting cond' ts cond' u = true := h
    rw [Function.update_self] at h
    exact hts u hu h
  · have h : Function.update m.waiting cond ts cond' u = true := h
    rw [Function.update_of_ne hc] at h
    exact h

theorem LeavesMain.update (t : Thread) (m : Shared) (cond : Cond) (b : Bool) :
    LeavesMain t m (m.setWaiting cond (Function.update (m.waiting cond) t b)) :=
  .setWaiting fun u hu h => by rwa [Function.update_of_ne hu] at h

theorem LeavesMain.broadcast (t : Thread) (m : Shared) (cond : Cond) :
    LeavesMain t m (m.broadcast cond) :=
  .setWaiting fun _ _ h => absurd h Bool.false_ne_true

theorem LeavesMain.finish (t : Thread) (m : Shared) : LeavesMain t m (m.finish t) := by
  refine ⟨⟨fun _ h => h, fun h => h, fun u h => ?_, fun u hu => Function.update_of_ne hu _ _,
    fun _ _ _ h => h⟩, rfl, rfl, fun _ _ => rfl⟩
  show Function.update m.returned t true u = true
  by_cases hu : u = t
  · subst hu
    exact Function.update_self _ _ _
  · rw [Function.update_of_ne hu]
    exact h

theorem customer_leaves {i : Customer} {pc pc' : CustomerPlace}
    (h : purchaseStart i pc m e = some (pc', m', op)) : LeavesMain (.customer i) m m' := by
  cases pc with
  | start | testGoods num | testEmpty num =>
    cases e <;> try cases h
    simp only [purchaseStart] at h
    split at h <;> cases h <;> exact .refl _ _
  | testDemand =>
    cases e <;> try cases h
    simp only [purchaseStart] at h
    split at h <;> cases h
    · exact .refl _ _
    · exact .finish _ _
  | condWait num =>
    cases e <;> cases h
    exact .update _ _ _ _
  | asleep num =>
    cases e <;> try cases h
    · simp only [purchaseStart] at h
      split at h <;> cases h
      exact .refl _ _
    · exact .update _ _ _ _
  | storeDemand num demand =>
    cases e <;> cases h
    exact .setDemand _ _ _
  | storeGoods num goods =>
    cases e <;> cases h
    exact .setGoods _ _ _ _
  | broadcast num =>
    cases e <;> cases h
    exact .broadcast _ _ _
  | _ => cases e <;> cases h <;> exact .refl _ _

theorem supplier_leaves {j : Store} {pc pc' : SupplierPlace}
    (h : supplyStart j pc m e = some (pc', m', op)) : LeavesMain (.supplier j) m m' := by
  cases pc with
  | start | testFull num =>
    cases e <;> try cases h
    simp only [supplyStart] at h
    split at h <;> cases h <;> exact .refl _ _
  | testOpen num full =>
    cases e <;> try cases h
    simp only [supplyStart] at h
    split at h <;> cases h <;> exact .refl _ _
  | unlockFlag num full =>
    cases full <;> cases e <;> cases h <;> exact .refl _ _
  | condWait num =>
    cases e <;> cases h
    exact .update _ _ _ _
  | asleep num =>
    cases e <;> try cases h
    · simp only [supplyStart] at h
      split at h <;> cases h
      exact .refl _ _
    · exact .update _ _ _ _
  | storeGoods num goods =>
    cases e <;> cases h
    exact .setGoods _ _ _ _
  | broadcast num =>
    cases e <;> cases h
    exact .broadcast _ _ _
  | closedUnlock num =>
    cases e <;> cases h
    exact .finish _ _
  | _ => cases e <;> cases h <;> exact .refl _ _

theorem Leaves.create (m : Shared) (t u : Thread) : Leaves t m (m.create u) := by
  refine ⟨fun v h => ?_, fun h => h, fun _ h => h, fun _ _ => rfl, fun _ _ _ h => h⟩
  show Function.update m.created u true v = true
  by_cases hv : v = u
  · subst hv
    exact Function.update_self _ _ _
  · rw [Function.update_of_ne hv]
    exact h

theorem main_leaves {pc pc' : MainPlace} (h : mainThread pc m e = some (pc', m', op)) :
    Leaves .main m m' := by
  cases pc with
  | createCustomer i =>
    cases e <;> cases h
    have hcreate := Leaves.create m .main (.customer i)
    exact ⟨hcreate.created, fun h => h, fun _ h => h, fun _ _ => rfl, fun _ _ _ h => h⟩
  | setGoods j =>
    cases e <;> cases h
    exact (LeavesMain.setGoods _ _ _ _).toLeaves
  | createSupplier j =>
    cases e <;> cases h
    exact .create _ _ _
  | joinCustomer i =>
    cases e <;> try cases h
    simp only [mainThread] at h
    split at h <;> cases h
    exact (LeavesMain.refl _ _).toLeaves
  | joinSupplier j =>
    cases e <;> try cases h
    simp only [mainThread] at h
    split at h <;> cases h
    exact (LeavesMain.refl _ _).toLeaves
  | close =>
    cases e <;> cases h
    exact ⟨fun _ h => h, fun _ => rfl, fun _ h => h, fun _ _ => rfl, fun _ _ _ h => h⟩
  | broadcast num =>
    cases e <;> cases h
    exact (LeavesMain.broadcast _ _ _).toLeaves
  | _ => cases e <;> cases h <;> exact (LeavesMain.refl _ _).toLeaves

theorem program_leaves {t : Thread} {pc pc' : Place t}
    (h : program t pc m e = some (pc', m', op)) : Leaves t m m' := by
  cases t with
  | main => exact main_leaves h
  | customer i => exact (customer_leaves h).toLeaves
  | supplier j => exact (supplier_leaves h).toLeaves

/-- A customer or supplier. -/
theorem program_leavesMain {t : Thread} {pc pc' : Place t} (ht : t ≠ .main)
    (h : program t pc m e = some (pc', m', op)) : LeavesMain t m m' := by
  cases t with
  | main => exact absurd rfl ht
  | customer i => exact customer_leaves h
  | supplier j => exact supplier_leaves h

/-! ## 3. What a thread knows -/

/-- The demand of a customer that is at a store. -/
def CustomerPlace.Shopping (i : Customer) : CustomerPlace → Shared → Prop
  | .choose, m | .lock _, m | .testGoods _, m | .condWait _, m | .asleep _, m | .loadDemand _, m =>
    0 < m.demand i
  | .storeDemand _ demand, m => 0 < demand ∧ demand = m.demand i
  | _, _ => True

structure CustomerPlace.Knows (i : Customer) (pc : CustomerPlace) (m : Shared) : Prop where
  created : pc ≠ .start → m.created (.customer i) = true
  returned : m.returned (.customer i) = true → pc = .returned
  shopping : pc.Shopping i m

/-- The supplier has seen that the stores are closed. -/
def SupplierPlace.Closed : SupplierPlace → Prop
  | .closedFlag _ | .closedUnlock _ | .returned => True
  | _ => False

structure SupplierPlace.Knows (j : Store) (pc : SupplierPlace) (m : Shared) : Prop where
  created : pc ≠ .start → m.created (.supplier j) = true
  closed : pc.Closed → m.storesOpen = false

def MainPlace.Knows : MainPlace → Shared → Prop
  | .createCustomer k, m => m.storesOpen = true ∧
      (∀ i, k ≤ i → m.created (.customer i) = false) ∧ ∀ j, m.created (.supplier j) = false
  | .setGoods k, m | .createSupplier k, m => ∀ j, k ≤ j → m.created (.supplier j) = false
  | .joinCustomer k, m => ∀ i, i < k → m.returned (.customer i) = true
  | _, m => ∀ i, m.returned (.customer i) = true

def Knows : (t : Thread) → Place t → Shared → Prop
  | .main, pc, m => MainPlace.Knows pc m
  | .customer i, pc, m => CustomerPlace.Knows i pc m
  | .supplier j, pc, m => SupplierPlace.Knows j pc m

/-- The stores close when nobody has any demand. -/
structure Consistent (m : Shared) : Prop where
  bound : ∀ i, m.demand i < MAX_DEMAND
  launched : ∀ i, m.returned (.customer i) = true → m.created (.customer i) = true
  satisfied : ∀ i, m.returned (.customer i) = true → m.demand i ≤ 0
  closed : m.storesOpen = false → ∀ i, m.demand i ≤ 0

/-- Nothing that is consistent depends on the rest of the memory. -/
theorem Consistent.congr (h : Consistent m) (hdemand : m'.demand = m.demand)
    (hreturned : m'.returned = m.returned) (hopen : m'.storesOpen = m.storesOpen)
    (hcreated : ∀ u, m.created u = true → m'.created u = true) : Consistent m' := by
  refine ⟨fun i => ?_, fun i hi => ?_, fun i hi => ?_, fun hc i => ?_⟩
  · rw [hdemand]
    exact h.bound i
  · rw [hreturned] at hi
    exact hcreated _ (h.launched i hi)
  · rw [hdemand]
    rw [hreturned] at hi
    exact h.satisfied i hi
  · rw [hdemand]
    rw [hopen] at hc
    exact h.closed hc i

theorem Consistent.setWaiting (h : Consistent m) (cond : Cond) (ts : Thread → Bool) :
    Consistent (m.setWaiting cond ts) := h.congr rfl rfl rfl fun _ hu => hu

/-- A customer takes its demand down. -/
theorem Consistent.setDemand {i : Customer} {x : Int} (h : Consistent m) (hx : x ≤ m.demand i) :
    Consistent (m.setDemand i x) := by
  have hle : ∀ i', (m.setDemand i x).demand i' ≤ m.demand i' := by
    intro i'
    show Function.update m.demand i x i' ≤ m.demand i'
    by_cases hi : i' = i
    · subst hi
      rw [Function.update_self]
      exact hx
    · rw [Function.update_of_ne hi]
  exact ⟨fun i' => lt_of_le_of_lt (hle i') (h.bound i'), h.launched,
    fun i' hi' => le_trans (hle i') (h.satisfied i' hi'),
    fun hc i' => le_trans (hle i') (h.closed hc i')⟩

/-- A thread returns; a customer only without demand. -/
theorem Consistent.finish {t : Thread} (h : Consistent m)
    (ht : ∀ i, t = .customer i → m.created t = true ∧ m.demand i ≤ 0) :
    Consistent (m.finish t) := by
  have hold : ∀ i, t ≠ .customer i → (m.finish t).returned (.customer i) = true →
      m.returned (.customer i) = true := by
    intro i hti hi
    have hi : Function.update m.returned t true (.customer i) = true := hi
    rwa [Function.update_of_ne fun e => hti e.symm] at hi
  refine ⟨h.bound, fun i hi => ?_, fun i hi => ?_, h.closed⟩
  · by_cases hti : t = .customer i
    · exact hti ▸ (ht i hti).1
    · exact h.launched i (hold i hti hi)
  · by_cases hti : t = .customer i
    · exact (ht i hti).2
    · exact h.satisfied i (hold i hti hi)

theorem demand_step {d : Int} (h0 : 0 < d) (hmax : d < MAX_DEMAND) :
    wrap32 (d - 500) = d - 500 := by
  have hmax : d < 5500 := hmax
  exact wrap32_of_inRange ⟨by unfold INT_MIN; linarith, by unfold INT_MAX; linarith⟩

/-- A step between two places of the loop. -/
theorem CustomerPlace.Knows.move {i : Customer} {pc pc' : CustomerPlace} (hk : pc.Knows i m)
    (hstart : pc ≠ .start) (hend : pc ≠ .returned) (hcreated : m'.created = m.created)
    (hreturned : m'.returned = m.returned) (hshop : pc'.Shopping i m') : pc'.Knows i m' := by
  refine ⟨fun _ => ?_, fun hr => ?_, hshop⟩
  · rw [hcreated]
    exact hk.created hstart
  · rw [hreturned] at hr
    exact absurd (hk.returned hr) hend

theorem customer_knows {i : Customer} {pc pc' : CustomerPlace} (hm : Consistent m)
    (hk : pc.Knows i m) (h : purchaseStart i pc m e = some (pc', m', op)) :
    Consistent m' ∧ pc'.Knows i m' := by
  cases pc with
  | start =>
    cases e <;> try cases h
    simp only [purchaseStart] at h
    split at h <;> cases h
    rename_i hc
    exact ⟨hm, fun _ => hc, fun hr => absurd (hk.returned hr) nofun, trivial⟩
  | testDemand =>
    cases e <;> try cases h
    simp only [purchaseStart] at h
    split at h <;> cases h
    · rename_i hd
      exact ⟨hm, hk.move nofun nofun rfl rfl hd⟩
    · rename_i hd
      have hc := hk.created nofun
      refine ⟨hm.finish fun i' hi' => ?_, fun _ => hc, fun _ => rfl, trivial⟩
      cases hi'
      exact ⟨hc, not_lt.mp hd⟩
  | testGoods num | testEmpty num =>
    cases e <;> try cases h
    simp only [purchaseStart] at h
    split at h <;> cases h <;> exact ⟨hm, hk.move nofun nofun rfl rfl hk.shopping⟩
  | condWait num =>
    cases e <;> cases h
    exact ⟨hm.setWaiting _ _, hk.move nofun nofun rfl rfl hk.shopping⟩
  | asleep num =>
    cases e <;> try cases h
    · simp only [purchaseStart] at h
      split at h <;> cases h
      exact ⟨hm, hk.move nofun nofun rfl rfl hk.shopping⟩
    · exact ⟨hm.setWaiting _ _, hk.move nofun nofun rfl rfl hk.shopping⟩
  | loadDemand num =>
    cases e <;> cases h
    exact ⟨hm, hk.move nofun nofun rfl rfl ⟨hk.shopping, rfl⟩⟩
  | storeDemand num demand =>
    cases e <;> cases h
    obtain ⟨h0, rfl⟩ := hk.shopping
    rw [demand_step h0 (hm.bound i)]
    have hless : m.demand i - 500 ≤ m.demand i := sub_le_self _ (by decide)
    exact ⟨hm.setDemand hless, hk.move nofun nofun rfl rfl trivial⟩
  | storeGoods num goods =>
    cases e <;> cases h
    exact ⟨hm.congr rfl rfl rfl fun _ hu => hu, hk.move nofun nofun rfl rfl trivial⟩
  | broadcast num =>
    cases e <;> cases h
    exact ⟨hm.setWaiting _ _, hk.move nofun nofun rfl rfl trivial⟩
  | choose | lock num =>
    cases e <;> cases h
    exact ⟨hm, hk.move nofun nofun rfl rfl hk.shopping⟩
  | _ => cases e <;> cases h <;> exact ⟨hm, hk.move nofun nofun rfl rfl trivial⟩

theorem supplier_knows {j : Store} {pc pc' : SupplierPlace} (hm : Consistent m)
    (hk : pc.Knows j m) (h : supplyStart j pc m e = some (pc', m', op)) :
    Consistent m' ∧ pc'.Knows j m' := by
  cases pc with
  | start =>
    cases e <;> try cases h
    simp only [supplyStart] at h
    split at h <;> cases h
    rename_i hc
    exact ⟨hm, fun _ => hc, False.elim⟩
  | testOpen num full =>
    cases e <;> try cases h
    simp only [supplyStart] at h
    split at h <;> cases h
    · exact ⟨hm, fun _ => hk.created nofun, False.elim⟩
    · rename_i hopen
      exact ⟨hm, fun _ => hk.created nofun, fun _ => Bool.eq_false_of_not_eq_true hopen⟩
  | unlockFlag num full =>
    cases full <;> cases e <;> cases h <;>
      exact ⟨hm, fun _ => hk.created nofun, False.elim⟩
  | testFull num =>
    cases e <;> try cases h
    simp only [supplyStart] at h
    split at h <;> cases h <;> exact ⟨hm, fun _ => hk.created nofun, False.elim⟩
  | condWait num =>
    cases e <;> cases h
    exact ⟨hm.setWaiting _ _, fun _ => hk.created nofun, False.elim⟩
  | asleep num =>
    cases e <;> try cases h
    · simp only [supplyStart] at h
      split at h <;> cases h
      exact ⟨hm, fun _ => hk.created nofun, False.elim⟩
    · exact ⟨hm.setWaiting _ _, fun _ => hk.created nofun, False.elim⟩
  | storeGoods num goods =>
    cases e <;> cases h
    exact ⟨hm.congr rfl rfl rfl fun _ hu => hu, fun _ => hk.created nofun, False.elim⟩
  | broadcast num =>
    cases e <;> cases h
    exact ⟨hm.setWaiting _ _, fun _ => hk.created nofun, False.elim⟩
  | closedFlag num =>
    cases e <;> cases h
    exact ⟨hm, fun _ => hk.created nofun, fun _ => hk.closed trivial⟩
  | closedUnlock num =>
    cases e <;> cases h
    have hfinish : Consistent (m.finish (.supplier j)) := hm.finish fun i hi => by cases hi
    exact ⟨hfinish, fun _ => hk.created nofun, fun _ => hk.closed trivial⟩
  | _ => cases e <;> cases h <;> exact ⟨hm, fun _ => hk.created nofun, False.elim⟩

/-- `main` has created thread `u`, and no other. -/
theorem not_created {u v : Thread} (hne : v ≠ u) (h : m.created v = false) :
    (m.create u).created v = false := by
  show Function.update m.created u true v = false
  rw [Function.update_of_ne hne]
  exact h

theorem main_knows {pc pc' : MainPlace} (hm : Consistent m) (hk : pc.Knows m)
    (h : mainThread pc m e = some (pc', m', op)) : Consistent m' ∧ pc'.Knows m' := by
  cases pc with
  | createCustomer k =>
    cases e <;> cases h
    rename_i x
    obtain ⟨hopen, hcustomers, hsuppliers⟩ := hk
    -- a customer that has returned was created before
    have hreturned : ∀ i, m.returned (.customer i) = true → i ≠ k := by
      intro i hi hik
      have hcreated := hm.launched i hi
      rw [hik, hcustomers k (le_refl k)] at hcreated
      exact Bool.false_ne_true hcreated
    refine ⟨⟨fun i => ?_, fun i hi => ?_, fun i hi => ?_, fun hc => ?_⟩, ?_⟩
    · show Function.update m.demand k (x.val : Int) i < MAX_DEMAND
      by_cases hi : i = k
      · subst hi
        rw [Function.update_self]
        exact_mod_cast x.isLt
      · rw [Function.update_of_ne hi]
        exact hm.bound i
    · exact (Leaves.create (m.setDemand k x.val) .main (.customer k)).created _ (hm.launched i hi)
    · show Function.update m.demand k (x.val : Int) i ≤ 0
      rw [Function.update_of_ne (hreturned i hi)]
      exact hm.satisfied i hi
    · exact absurd (hopen.symm.trans hc) (by decide)
    · refine following_cases (Q := fun pc : MainPlace =>
        pc.Knows ((m.setDemand k x.val).create (.customer k))) k (fun hlt => ?_) fun _ => ?_
      · refine ⟨hopen, fun i hi => ?_, fun j => ?_⟩
        · have hki : k < i := lt_of_lt_of_le (Nat.lt_succ_self k.val) hi
          exact not_created (m := m.setDemand k x.val)
            (fun e => (ne_of_gt hki) (Thread.customer.inj e)) (hcustomers i (le_of_lt hki))
        · exact not_created (m := m.setDemand k x.val) Thread.noConfusion (hsuppliers j)
      · intro j _
        exact not_created (m := m.setDemand k x.val) Thread.noConfusion (hsuppliers j)
  | setGoods k =>
    cases e <;> cases h
    exact ⟨hm.congr rfl rfl rfl fun _ hu => hu, hk⟩
  | createSupplier k =>
    cases e <;> cases h
    refine ⟨hm.congr rfl rfl rfl (Leaves.create m .main _).created, ?_⟩
    refine following_cases (Q := fun pc : MainPlace =>
      pc.Knows (m.create (.supplier k))) k (fun hlt => ?_) fun _ => ?_
    · intro j hj
      have hkj : k < j := lt_of_lt_of_le (Nat.lt_succ_self k.val) hj
      exact not_created (fun e => (ne_of_gt hkj) (Thread.supplier.inj e)) (hk j (le_of_lt hkj))
    · intro i hi
      exact absurd hi (Nat.not_lt_zero _)
  | joinCustomer k =>
    cases e <;> try cases h
    simp only [mainThread] at h
    split at h <;> cases h
    rename_i hret
    -- the customers up to and with `k`
    have hle : ∀ i, i ≤ k → m.returned (.customer i) = true := by
      intro i hi
      rcases lt_or_eq_of_le hi with hlt | rfl
      · exact hk i hlt
      · exact hret
    refine ⟨hm, ?_⟩
    refine following_cases (Q := fun pc : MainPlace => pc.Knows m) k (fun hlt => ?_) fun hlast => ?_
    · intro i hi
      exact hle i (Nat.le_of_lt_succ hi)
    · intro i
      have hi : i.val < k.val + 1 := lt_of_lt_of_eq i.isLt hlast.symm
      exact hle i (Nat.le_of_lt_succ hi)
  | close =>
    cases e <;> cases h
    exact ⟨⟨hm.bound, hm.launched, hm.satisfied, fun _ i => hm.satisfied i (hk i)⟩, hk⟩
  | broadcast num =>
    cases e <;> cases h
    exact ⟨hm.setWaiting _ _, hk⟩
  | unlock num =>
    cases e <;> cases h
    refine ⟨hm, ?_⟩
    exact following_cases (Q := fun pc : MainPlace => pc.Knows m) num (fun _ => hk) fun _ => hk
  | joinSupplier k =>
    cases e <;> try cases h
    simp only [mainThread] at h
    split at h <;> cases h
    refine ⟨hm, ?_⟩
    exact following_cases (Q := fun pc : MainPlace => pc.Knows m) k (fun _ => hk) fun _ => hk
  | _ => cases e <;> cases h <;> exact ⟨hm, hk⟩

/-! ## 4. What another thread's step leaves of it -/

theorem MainPlace.Knows.stable {t : Thread} {pc : MainPlace} (hk : pc.Knows m)
    (h : LeavesMain t m m') : pc.Knows m' := by
  cases pc with
  | createCustomer k =>
    obtain ⟨hopen, hcustomers, hsuppliers⟩ := hk
    refine ⟨h.keepsOpen.trans hopen, fun i hi => ?_, fun j => ?_⟩
    · rw [h.creating]
      exact hcustomers i hi
    · rw [h.creating]
      exact hsuppliers j
  | setGoods k | createSupplier k =>
    intro j hj
    rw [h.creating]
    exact hk j hj
  | joinCustomer k => exact fun i hi => h.returned _ (hk i hi)
  | _ => exact fun i => h.returned _ (hk i)

/-- `main` gives a demand only to customers that it has not created yet. -/
theorem main_demand {pc pc' : MainPlace} {i : Customer} (hk : pc.Knows m)
    (h : mainThread pc m e = some (pc', m', op)) (hc : m.created (.customer i) = true) :
    m'.demand i = m.demand i := by
  cases pc with
  | createCustomer k =>
    cases e <;> cases h
    refine Function.update_of_ne (fun hik => ?_) _ _
    rw [hik, hk.2.1 k (le_refl k)] at hc
    exact Bool.false_ne_true hc
  | joinCustomer k | joinSupplier k =>
    cases e <;> try cases h
    simp only [mainThread] at h
    split at h <;> cases h
    rfl
  | _ => cases e <;> cases h <;> rfl

theorem CustomerPlace.Shopping.stable {i : Customer} {pc : CustomerPlace} (hs : pc.Shopping i m)
    (hd : pc ≠ .start → m'.demand i = m.demand i) : pc.Shopping i m' := by
  cases pc with
  | choose =>
    show 0 < m'.demand i
    rw [hd nofun]
    exact hs
  | lock num | testGoods num | condWait num | asleep num | loadDemand num =>
    show 0 < m'.demand i
    rw [hd nofun]
    exact hs
  | storeDemand num demand =>
    refine ⟨hs.1, ?_⟩
    rw [hd nofun]
    exact hs.2
  | _ => trivial

theorem knows_stable {s : State} {t u : Thread} {pc : Place t} (hk : ∀ v, Knows v (s.pc v) s.mem)
    (hne : u ≠ t) (h : program t (s.pc t) s.mem e = some (pc, m', op)) :
    Knows u (s.pc u) m' := by
  have hleaves := program_leaves h
  cases u with
  | main => exact MainPlace.Knows.stable (hk .main) (program_leavesMain hne.symm h)
  | supplier j =>
    have hj : SupplierPlace.Knows j (s.pc (.supplier j)) s.mem := hk (.supplier j)
    exact ⟨fun hs => hleaves.created _ (hj.created hs), fun hc => hleaves.closed (hj.closed hc)⟩
  | customer i =>
    have hi : CustomerPlace.Knows i (s.pc (.customer i)) s.mem := hk (.customer i)
    refine ⟨fun hs => hleaves.created _ (hi.created hs), fun hr => ?_,
      hi.shopping.stable fun hs => ?_⟩
    · rw [hleaves.running _ hne] at hr
      exact hi.returned hr
    · by_cases ht : t = .main
      · subst ht
        exact main_demand (hk .main) h (hi.created hs)
      · exact (program_leavesMain ht h).demand i hne.symm

/-! ## 5. Every run -/

structure Inv (s : State) : Prop where
  sound : Sound held Consistent Knows s
  owned : Owned held s.pc s.sem

theorem inv_init : Inv init := by
  have hnone : ∀ t, held t (entry t) = ∅ := by
    intro t
    cases t <;> rfl
  have hbound : (0 : Int) < MAX_DEMAND := by decide
  refine ⟨⟨.initial hnone fun _ => rfl, ⟨fun _ => hbound, fun _ h => absurd h Bool.false_ne_true,
    fun _ _ => le_refl 0, fun _ _ => le_refl 0⟩, fun t => ?_⟩, fun _ hx => absurd hx one_ne_zero⟩
  cases t with
  | main => exact ⟨rfl, fun _ _ => rfl, fun _ => rfl⟩
  | customer i => exact ⟨fun h => absurd rfl h, fun h => absurd h Bool.false_ne_true, trivial⟩
  | supplier j => exact ⟨fun h => absurd rfl h, False.elim⟩

theorem inv_step {s s' : State} {t : Thread} (h : Inv s) (hstep : step s (t, e) = some s') :
    Inv s' := by
  refine ⟨h.sound.step program_disciplined ?_ ?_ hstep, ?_⟩
  · intro pc m op hnext
    cases t with
    | main => exact main_knows h.sound.mem (h.sound.knows .main) hnext
    | customer i => exact customer_knows h.sound.mem (h.sound.knows (.customer i)) hnext
    | supplier j => exact supplier_knows h.sound.mem (h.sound.knows (.supplier j)) hnext
  · intro u pc m op hne hnext _ _
    exact knows_stable h.sound.knows hne hnext
  · obtain ⟨pc, m, op, sem, hnext, hop, rfl⟩ := Sys.step_cases hstep
    exact h.owned.step h.sound.locks (program_keeps hnext) hop

end CustomerStore
end Labs
