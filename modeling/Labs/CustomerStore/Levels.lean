import Labs.CustomerStore.Stock

/-!
# How low the stock and the demands get

A customer buys 500 at a time, as long as it has any demand and the store any goods. So both go
below zero with the last purchase, but by less than 500. The goods can be exactly 500 below zero:
between the test and the load of a customer `main` may assign zero to a store that a supplier has
been to already.

None of this needs `main` to assign the goods in time. What a thread has seen under the mutex is
stated so weakly here (`Expects`) that an assignment does not change it.

## A weaker knowledge

`Stock` needs to know the goods exactly, and for that `main` has to have assigned them before
anybody looks. Here that is not so. A customer that has found goods may find none at the next
access, since `main` may have set them to zero in between; so all it expects is that they are not
negative. A supplier that has found a store empty may find it filled, by `main`, with less than what
it would bring itself.

The bounds on what is stored follow from that: a customer takes 500 from what is not negative, a
supplier adds to what is small. What `main` assigns does not come into them, apart from being less
than a supply. That a purchase can take more than there is, is `oversold`.

The demands are simpler. A demand is changed by its customer and by nobody else, so the last
purchase is the only step that can bring it below zero.
-/

namespace Labs
namespace CustomerStore

open Lib

variable {m m' : Shared} {op : SemOp Mutex} {e : Event} {s s' : State}

/-! ## 1. The goods -/

/-- A customer has seen goods, which `main` may have replaced by none. -/
def CustomerPlace.Expects : CustomerPlace → Shared → Prop
  | .loadDemand num, m | .storeDemand num _, m | .loadGoods num, m => 0 ≤ m.goods num
  | .storeGoods _ goods, _ => 0 ≤ goods ∧ goods < 1000
  | _, _ => True

/-- A supplier has seen the store empty, and `main` gives it less than `MIN_SUPPLY`. -/
def SupplierPlace.Expects : SupplierPlace → Shared → Prop
  | .lockFlag num false, m | .testOpen num false, m | .unlockFlag num false, m
  | .loadGoods num, m => m.goods num < MIN_SUPPLY
  | .storeGoods _ goods, _ => -500 ≤ goods ∧ goods < MIN_SUPPLY
  | _, _ => True

def Expects : (t : Thread) → Place t → Shared → Prop
  | .main, _, _ => True
  | .customer _, pc, m => CustomerPlace.Expects pc m
  | .supplier _, pc, m => SupplierPlace.Expects pc m

def Stocked (m : Shared) : Prop := ∀ num, -500 ≤ m.goods num ∧ m.goods num < 1000

theorem stocked_setGoods {num : Store} {x : Int} (h : Stocked m) (hx : -500 ≤ x ∧ x < 1000) :
    Stocked (m.setGoods num x) := by
  intro num'
  show -500 ≤ Function.update m.goods num x num' ∧ Function.update m.goods num x num' < 1000
  by_cases hn : num' = num
  · subst hn
    rw [Function.update_self]
    exact hx
  · rw [Function.update_of_ne hn]
    exact h num'

/-- **A step of a customer.** -/
theorem customer_expects {i : Customer} {pc pc' : CustomerPlace} (hm : Stocked m)
    (hk : pc.Expects m) (h : purchaseStart i pc m e = some (pc', m', op)) :
    Stocked m' ∧ pc'.Expects m' := by
  cases pc with
  | start | testDemand | testEmpty num =>
    cases e <;> try cases h
    simp only [purchaseStart] at h
    split at h <;> cases h <;> exact ⟨hm, trivial⟩
  | testGoods num =>
    cases e <;> try cases h
    simp only [purchaseStart] at h
    split at h <;> cases h
    · exact ⟨hm, trivial⟩
    · rename_i hgoods
      exact ⟨hm, le_of_lt (not_le.mp hgoods)⟩
  | asleep num =>
    cases e <;> try cases h
    · simp only [purchaseStart] at h
      split at h <;> cases h
      exact ⟨hm, trivial⟩
    · exact ⟨hm, trivial⟩
  | loadDemand num | storeDemand num demand =>
    cases e <;> cases h
    exact ⟨hm, hk⟩
  | loadGoods num =>
    cases e <;> cases h
    exact ⟨hm, hk, (hm num).2⟩
  | storeGoods num goods =>
    cases e <;> cases h
    obtain ⟨h0, hmax⟩ := hk
    rw [wrap32_goods ⟨by linarith, by linarith⟩]
    exact ⟨stocked_setGoods hm ⟨by linarith, by linarith⟩, trivial⟩
  | _ => cases e <;> cases h <;> exact ⟨hm, trivial⟩

theorem supplier_expects {j : Store} {pc pc' : SupplierPlace} (hm : Stocked m)
    (hk : pc.Expects m) (h : supplyStart j pc m e = some (pc', m', op)) :
    Stocked m' ∧ pc'.Expects m' := by
  cases pc with
  | start | testFull num =>
    cases e <;> try cases h
    simp only [supplyStart] at h
    split at h <;> cases h <;> exact ⟨hm, trivial⟩
  | testGoods num =>
    cases e <;> cases h
    refine ⟨hm, ?_⟩
    by_cases hgoods : 0 < m.goods num
    · rw [decide_eq_true hgoods]
      trivial
    · rw [decide_eq_false hgoods]
      exact lt_of_le_of_lt (not_lt.mp hgoods) (by decide)
  | lockFlag num full =>
    cases e <;> cases h
    cases full with
    | true => exact ⟨hm, trivial⟩
    | false => exact ⟨hm, hk⟩
  | testOpen num full =>
    cases e <;> try cases h
    simp only [supplyStart] at h
    split at h <;> cases h
    · cases full with
      | true => exact ⟨hm, trivial⟩
      | false => exact ⟨hm, hk⟩
    · exact ⟨hm, trivial⟩
  | unlockFlag num full =>
    cases full with
    | true =>
      cases e <;> cases h
      exact ⟨hm, trivial⟩
    | false =>
      cases e <;> cases h
      exact ⟨hm, hk⟩
  | asleep num =>
    cases e <;> try cases h
    · simp only [supplyStart] at h
      split at h <;> cases h
      exact ⟨hm, trivial⟩
    · exact ⟨hm, trivial⟩
  | loadGoods num =>
    cases e <;> cases h
    exact ⟨hm, (hm num).1, hk⟩
  | storeGoods num goods =>
    cases e <;> cases h
    obtain ⟨hmin, hless⟩ := hk
    have hless : goods < 500 := hless
    rw [wrap32_goods ⟨by linarith, by linarith⟩]
    exact ⟨stocked_setGoods hm ⟨by linarith, by linarith⟩, trivial⟩
  | _ => cases e <;> cases h <;> exact ⟨hm, trivial⟩

/-- What is expected of the goods of a store outlasts every assignment of `main`. -/
theorem expects_stable {u : Thread} {pc : Place u} (hk : Expects u pc m)
    (hgoods : ∀ num, Mutex.store num ∈ held u pc →
      m'.goods num = m.goods num ∨ 0 ≤ m'.goods num ∧ m'.goods num < MIN_SUPPLY) :
    Expects u pc m' := by
  cases u with
  | main => trivial
  | customer i =>
    change CustomerPlace at pc
    have hpos : ∀ num, Mutex.store num ∈ pc.held → 0 ≤ m.goods num → 0 ≤ m'.goods num := by
      intro num hheld h0
      rcases hgoods num hheld with heq | hnew
      · rw [heq]
        exact h0
      · exact hnew.1
    cases pc with
    | loadDemand num | storeDemand num demand | loadGoods num => exact hpos num rfl hk
    | storeGoods num goods => exact hk
    | _ => trivial
  | supplier j =>
    change SupplierPlace at pc
    have hless : ∀ num, Mutex.store num ∈ pc.held → m.goods num < MIN_SUPPLY →
        m'.goods num < MIN_SUPPLY := by
      intro num hheld hlt
      rcases hgoods num hheld with heq | hnew
      · rw [heq]
        exact hlt
      · exact hnew.2
    cases pc with
    | lockFlag num full =>
      cases full with
      | true => trivial
      | false => exact hless num rfl hk
    | testOpen num full | unlockFlag num full =>
      cases full with
      | true => trivial
      | false => exact hless num (Set.mem_insert_of_mem _ rfl) hk
    | loadGoods num => exact hless num rfl hk
    | storeGoods num goods => exact hk
    | _ => trivial

/-- What `main` leaves of the goods. -/
theorem main_stocked {pc pc' : MainPlace} (hm : Stocked m)
    (h : mainThread pc m e = some (pc', m', op)) :
    Stocked m' ∧ ∀ num, m'.goods num = m.goods num ∨
      0 ≤ m'.goods num ∧ m'.goods num < MIN_SUPPLY := by
  rcases main_goods h with ⟨hgoods, -⟩ | ⟨num, x, -, -, -, rfl⟩
  · refine ⟨fun num => ?_, fun num => .inl (congrFun hgoods num)⟩
    rw [hgoods]
    exact hm num
  · have h0 : (0 : Int) ≤ x.val := Int.natCast_nonneg _
    have hx : (x.val : Int) < 500 := by exact_mod_cast x.isLt
    refine ⟨stocked_setGoods hm ⟨by linarith, by linarith⟩, fun num' => ?_⟩
    by_cases hn : num' = num
    · subst hn
      refine .inr ?_
      show 0 ≤ Function.update m.goods num' (x.val : Int) num' ∧
        Function.update m.goods num' (x.val : Int) num' < MIN_SUPPLY
      rw [Function.update_self]
      exact ⟨h0, hx⟩
    · exact .inl (Function.update_of_ne hn _ _)

/-! ## 2. The demands -/

/-- No demand has been brought down by more than one purchase below zero. -/
def Demanded (m : Shared) : Prop := ∀ i, -500 < m.demand i

theorem demanded_setDemand {i : Customer} {x : Int} (h : Demanded m) (hx : -500 < x) :
    Demanded (m.setDemand i x) := by
  intro i'
  show -500 < Function.update m.demand i x i'
  by_cases hi : i' = i
  · subst hi
    rw [Function.update_self]
    exact hx
  · rw [Function.update_of_ne hi]
    exact h i'

theorem demanded_congr (h : Demanded m) (hdemand : m'.demand = m.demand) : Demanded m' := by
  intro i
  rw [hdemand]
  exact h i

theorem customer_demanded {i : Customer} {pc pc' : CustomerPlace} (hm : Demanded m)
    (hbound : ∀ i, m.demand i < MAX_DEMAND) (hk : pc.Shopping i m)
    (h : purchaseStart i pc m e = some (pc', m', op)) : Demanded m' := by
  cases pc with
  | start | testDemand | testGoods num | testEmpty num =>
    cases e <;> try cases h
    simp only [purchaseStart] at h
    split at h <;> cases h <;> exact hm
  | asleep num =>
    cases e <;> try cases h
    · simp only [purchaseStart] at h
      split at h <;> cases h
      exact hm
    · exact hm
  | storeDemand num demand =>
    cases e <;> cases h
    obtain ⟨h0, rfl⟩ := hk
    rw [demand_step h0 (hbound i)]
    exact demanded_setDemand hm (by linarith)
  | _ => cases e <;> cases h <;> exact hm

theorem main_demanded {pc pc' : MainPlace} (hm : Demanded m)
    (h : mainThread pc m e = some (pc', m', op)) : Demanded m' := by
  cases pc with
  | createCustomer k =>
    cases e <;> cases h
    rename_i x
    have h0 : (0 : Int) ≤ x.val := Int.natCast_nonneg _
    exact demanded_setDemand hm (by linarith)
  | joinCustomer k | joinSupplier k =>
    cases e <;> try cases h
    simp only [mainThread] at h
    split at h <;> cases h
    exact hm
  | _ => cases e <;> cases h <;> exact hm

/-! ## 3. Every run -/

structure Bounded (s : State) : Prop where
  inv : Inv s
  expects : Sound held Stocked Expects s
  demanded : Demanded s.mem

theorem bounded_init : Bounded init := by
  have hnone : ∀ t, held t (entry t) = ∅ := by
    intro t
    cases t <;> rfl
  refine ⟨inv_init, ⟨.initial hnone fun _ => rfl, fun _ => ?_, fun t => ?_⟩, fun _ => ?_⟩
  · exact (by decide : (-500 : Int) ≤ 0 ∧ (0 : Int) < 1000)
  · cases t <;> exact trivial
  · exact (by decide : (-500 : Int) < 0)

theorem Bounded.step {t : Thread} (h : Bounded s)
    (hstep : CustomerStore.step s (t, e) = some s') : Bounded s' := by
  refine ⟨inv_step h.inv hstep, h.expects.step program_disciplined ?_ ?_ hstep, ?_⟩
  · intro pc m op hnext
    cases t with
    | main => exact ⟨(main_stocked h.expects.mem hnext).1, trivial⟩
    | customer i => exact customer_expects h.expects.mem (h.expects.knows (.customer i)) hnext
    | supplier j => exact supplier_expects h.expects.mem (h.expects.knows (.supplier j)) hnext
  · intro u pc m op _ hnext hapart hk
    refine expects_stable hk fun num hheld => ?_
    by_cases ht : t = .main
    · subst ht
      exact (main_stocked h.expects.mem hnext).2 num
    · exact .inl (program_goods ht hnext fun hx => hapart _ hx hheld)
  · obtain ⟨pc, m, op, sem, hnext, -, rfl⟩ := Sys.step_cases hstep
    cases t with
    | main => exact main_demanded h.demanded hnext
    | customer i =>
      exact customer_demanded h.demanded h.inv.sound.mem.bound
        (h.inv.sound.knows (.customer i)).shopping hnext
    | supplier j =>
      exact demanded_congr h.demanded (funext fun i => (supplier_leaves hnext).demand i nofun)

/-- **How low the levels get**: no demand is 500 below zero, and no store's goods are lower. -/
theorem levels_bounded (h : Reaches step (fun _ _ => True) init s) :
    (∀ i, -500 < s.mem.demand i) ∧ ∀ num, -500 ≤ s.mem.goods num := by
  have hinv : Bounded s := h.invariant bounded_init fun _ _ _ hb _ hstep => hb.step hstep
  exact ⟨hinv.demanded, fun num => (hinv.expects.mem num).1⟩

/-- A customer with a demand of 300, and a store with 250 goods. -/
def lastPurchase : List (Thread × Event) :=
  List.replicate 5 (.main, .drawDemand 300) ++ [(.main, .drawGoods 250), (.main, .ok)] ++
    [(.customer firstCustomer, .ok), (.customer firstCustomer, .ok),
      (.customer firstCustomer, .pick firstStore)] ++
    List.replicate 6 (.customer firstCustomer, .ok)

theorem levels_bounded_lastPurchase :
    ∃ s, run step lastPurchase init = some s ∧ -500 < s.mem.demand firstCustomer ∧
      -500 ≤ s.mem.goods firstStore := by
  obtain ⟨s, hs⟩ : ∃ s, run step lastPurchase init = some s := ⟨_, rfl⟩
  have hbounds := levels_bounded (reaches_of_run (fun _ _ _ => trivial) .start hs)
  exact ⟨s, hs, hbounds.1 firstCustomer, hbounds.2 firstStore⟩

/-- The customer takes 500 all the same. -/
theorem oversold :
    ∃ s, Reaches step (fun _ _ => True) init s ∧ s.mem.goods firstStore < 0 ∧
      s.mem.demand firstCustomer < 0 := by
  obtain ⟨s, hs, hgoods, hdemand⟩ : ∃ s, run step lastPurchase init = some s ∧
      s.mem.goods firstStore = -250 ∧ s.mem.demand firstCustomer = -200 := ⟨_, rfl, rfl, rfl⟩
  refine ⟨s, reaches_of_run (fun _ _ _ => trivial) .start hs, ?_, ?_⟩
  · rw [hgoods]
    decide
  · rw [hdemand]
    decide

end CustomerStore
end Labs
