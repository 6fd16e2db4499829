import Labs.Lib.CInt
import Labs.Lib.Calls
import Mathlib.Data.List.Basic

/-!
# The matrix in reverse

`LAB_2/task_reverse_matrix/src/reverse_matrix.c`: `fill_matrix` numbers the cells, and `reverse`
calls itself for the inner cells before it swaps the two at its own distance from the ends. A matrix
is the cells behind its pointer. An `unsigned int` is a `UInt32`; the place
`mtrx + elements_total - counter - 1` is computed on the pointer and does not wrap around, so an
index may be negative.

The cells that a call reverses are those from `counter` to as many before the end: `reverse_spec`.
-/

namespace Labs
namespace ReverseMatrix

open Lib

/-! ## 1. The functions -/

def load (mtrx : List UInt32) (i : Int) : Except Stop UInt32 :=
  if i < 0 then .error .outOfBounds
  else
    match mtrx[i.toNat]? with
    | none => .error .outOfBounds
    | some cell => .ok cell

def store (mtrx : List UInt32) (i : Int) (cell : UInt32) : Except Stop (List UInt32) :=
  if 0 ≤ i ∧ i < mtrx.length then .ok (mtrx.set i.toNat cell) else .error .outOfBounds

/-- The assignments through `temp`. -/
def swap (mtrx : List UInt32) (i j : Int) : Except Stop (List UInt32) := do
  let temp ← load mtrx i
  let mtrx ← store mtrx i (← load mtrx j)
  store mtrx j temp

def reverse (elementsTotal counter : UInt32) (mtrx : List UInt32) : Except Stop (List UInt32) := do
  let inner ← if h : counter < elementsTotal / 2 - 1 then reverse elementsTotal (counter + 1) mtrx
    else .ok mtrx
  swap inner counter.toNat (elementsTotal.toNat - counter.toNat - 1)
termination_by (elementsTotal / 2 - 1).toNat - counter.toNat
decreasing_by exact turns_left_lt h

/-- The loop of `fill_matrix`, of which `m` turns are left. -/
def fillFrom : Nat → UInt32 → UInt32 → List UInt32 → Except Stop (List UInt32)
  | 0, _, _, mtrx => .ok mtrx
  | m + 1, i, counter, mtrx => do
    let mtrx ← store mtrx i.toNat (counter + 1)
    fillFrom m (i + 1) (counter + 1) mtrx

def fillMatrix (elementsTotal : UInt32) (mtrx : List UInt32) : Except Stop (List UInt32) :=
  fillFrom elementsTotal.toNat 0 0 mtrx

/-! ## 2. A swap -/

variable {mtrx : List UInt32}

theorem load_ok {i : Nat} (h : i < mtrx.length) : load mtrx i = .ok mtrx[i] := by
  unfold load
  rw [if_neg (by omega), Int.toNat_natCast, List.getElem?_eq_getElem h]

theorem store_ok {i : Nat} (h : i < mtrx.length) (cell : UInt32) :
    store mtrx i cell = .ok (mtrx.set i cell) := by
  unfold store
  rw [if_pos (by omega), Int.toNat_natCast]

theorem swap_spec (i j : Nat) (hi : i < mtrx.length) (hj : j < mtrx.length) :
    ∃ mtrx', swap mtrx i j = .ok mtrx' ∧ mtrx'.length = mtrx.length ∧
      ∀ k, mtrx'[k]? = if k = i then mtrx[j]? else if k = j then mtrx[i]? else mtrx[k]? := by
  refine ⟨(mtrx.set i mtrx[j]).set j mtrx[i], ?_, by simp, fun k => ?_⟩
  · unfold swap
    rw [load_ok hi, bind_of_ok rfl, load_ok hj, bind_of_ok rfl, store_ok hi, bind_of_ok rfl]
    exact store_ok (by simpa using hj) _
  · rw [List.getElem?_set, List.getElem?_set, List.length_set, List.getElem?_eq_getElem hi,
      List.getElem?_eq_getElem hj]
    by_cases hki : k = i
    · by_cases hkj : k = j
      · subst hki
        subst hkj
        simp [hi]
      · simp [hki, hi, hki ▸ Ne.symm hkj]
    · by_cases hkj : k = j
      · simp [hkj, hj, hkj ▸ hki]
      · simp [hki, hkj, Ne.symm hki, Ne.symm hkj]

/-! ## 3. The recursion -/

/-- `mtrx'` is `mtrx` of which the cells from `counter` to as many before the end of the first `n`
are reversed. -/
def Reversed (n counter : Nat) (mtrx mtrx' : List UInt32) : Prop :=
  mtrx'.length = mtrx.length ∧
    ∀ k, mtrx'[k]? = if counter ≤ k ∧ k + counter < n then mtrx[n - 1 - k]? else mtrx[k]?

variable {mtrx' : List UInt32} {n counter : Nat}

/-- Where the two ends have met there is at most the middle cell between them. -/
theorem reversed_self (h : n / 2 ≤ counter) : Reversed n counter mtrx mtrx := by
  refine ⟨rfl, fun k => ?_⟩
  by_cases hk : counter ≤ k ∧ k + counter < n
  · have hmid : n - 1 - k = k := by omega
    rw [if_pos hk, hmid]
  · rw [if_neg hk]

theorem swap_reversed (h : Reversed n (counter + 1) mtrx mtrx') (hc : counter + 1 ≤ n / 2)
    (hlen : n ≤ mtrx.length) :
    ∃ mtrx'', swap mtrx' counter (n - counter - 1) = .ok mtrx'' ∧
      Reversed n counter mtrx mtrx'' := by
  obtain ⟨hlen', hcell⟩ := h
  have hacross : (n : Int) - counter - 1 = ((n - 1 - counter : Nat) : Int) := by omega
  have hcounter : counter < mtrx'.length := by omega
  obtain ⟨mtrx'', hswap, hlen'', hcell''⟩ :=
    swap_spec counter (n - 1 - counter) hcounter (by omega)
  refine ⟨mtrx'', hacross ▸ hswap, hlen''.trans hlen', fun k => ?_⟩
  rw [hcell'', hcell, hcell, hcell]
  by_cases hk : k = counter
  · rw [if_pos hk, if_neg (by omega), if_pos (by omega), hk]
  · rw [if_neg hk]
    by_cases hk' : k = n - 1 - counter
    · have hback : n - 1 - k = counter := by omega
      rw [if_pos hk', if_neg (by omega), if_pos (by omega), hback]
    · rw [if_neg hk']
      by_cases hin : counter ≤ k ∧ k + counter < n
      · rw [if_pos hin, if_pos (by omega)]
      · rw [if_neg hin, if_neg (by omega)]

theorem pred_half {elementsTotal : UInt32} (h : 2 ≤ elementsTotal.toNat) :
    (elementsTotal / 2 - 1).toNat = elementsTotal.toNat / 2 - 1 := by
  have hdiv : (elementsTotal / 2).toNat = elementsTotal.toNat / 2 := UInt32.toNat_div _ 2
  have hle : (1 : UInt32) ≤ elementsTotal / 2 := by
    rw [UInt32.le_iff_toNat_le, hdiv]
    exact (Nat.le_div_iff_mul_le Nat.two_pos).mpr h
  rw [UInt32.toNat_sub_of_le _ _ hle, hdiv]
  rfl

theorem reverse_spec {elementsTotal : UInt32} (counter : UInt32) (hn : 2 ≤ elementsTotal.toNat)
    (hlen : elementsTotal.toNat ≤ mtrx.length)
    (hc : counter.toNat + 1 ≤ elementsTotal.toNat / 2) :
    ∃ mtrx', reverse elementsTotal counter mtrx = .ok mtrx' ∧
      Reversed elementsTotal.toNat counter.toNat mtrx mtrx' := by
  -- On how far the call is from the innermost one. It swaps behind the calls further in.
  induction hm : elementsTotal.toNat / 2 - 1 - counter.toNat generalizing counter with
  | zero =>
    have hstop : ¬ counter < elementsTotal / 2 - 1 := by
      rw [UInt32.lt_iff_toNat_lt, pred_half hn]
      omega
    obtain ⟨mtrx', hswap, hrev⟩ := swap_reversed (reversed_self (by omega)) hc hlen
    refine ⟨mtrx', ?_, hrev⟩
    rw [reverse, dif_neg hstop, bind_of_ok rfl]
    exact hswap
  | succ m ih =>
    have hgo : counter < elementsTotal / 2 - 1 := by
      rw [UInt32.lt_iff_toNat_lt, pred_half hn]
      omega
    have hnext := toNat_succ_of_lt hgo
    obtain ⟨inner, hinner, hrev⟩ := ih (counter + 1) (by omega) (by omega)
    rw [hnext] at hrev
    obtain ⟨mtrx', hswap, hrev'⟩ := swap_reversed hrev hc hlen
    refine ⟨mtrx', ?_, hrev'⟩
    rw [reverse, dif_pos hgo, hinner, bind_of_ok rfl]
    exact hswap

/-- Reversing all the cells twice is doing nothing. -/
theorem reversed_twice {mtrx'' : List UInt32} (h : Reversed n 0 mtrx mtrx')
    (h' : Reversed n 0 mtrx' mtrx'') : mtrx'' = mtrx := by
  apply List.ext_getElem?
  intro k
  rw [h'.2, h.2, h.2]
  by_cases hk : k < n
  · have hback : n - 1 - (n - 1 - k) = k := by omega
    rw [if_pos (by omega), if_pos (by omega), hback]
  · rw [if_neg (by omega), if_neg (by omega)]

/-- `reverse` from the outermost cells reverses the first `elements_total`, keeps those behind them,
and is undone by itself. -/
theorem reverse_reverses (elementsTotal : UInt32) (mtrx : List UInt32)
    (hn : 2 ≤ elementsTotal.toNat) (hlen : elementsTotal.toNat ≤ mtrx.length) :
    ∃ mtrx', reverse elementsTotal 0 mtrx = .ok mtrx' ∧ mtrx'.length = mtrx.length ∧
      (∀ i < elementsTotal.toNat, mtrx'[i]? = mtrx[elementsTotal.toNat - 1 - i]?) ∧
      (∀ i, elementsTotal.toNat ≤ i → mtrx'[i]? = mtrx[i]?) ∧
      reverse elementsTotal 0 mtrx' = .ok mtrx := by
  have hc : (0 : UInt32).toNat + 1 ≤ elementsTotal.toNat / 2 :=
    (Nat.le_div_iff_mul_le Nat.two_pos).mpr hn
  obtain ⟨mtrx', hrun, hrev⟩ := reverse_spec 0 hn hlen hc
  obtain ⟨mtrx'', hrun', hrev'⟩ := reverse_spec 0 hn (hrev.1 ▸ hlen) hc
  refine ⟨mtrx', hrun, hrev.1, fun i hi => ?_, fun i hi => ?_, ?_⟩
  · rw [hrev.2, if_pos ⟨Nat.zero_le i, hi⟩]
  · rw [hrev.2, if_neg (by simp only [UInt32.toNat_zero]; omega)]
  · rw [hrun', reversed_twice hrev hrev']

theorem reverse_reverses_five :
    2 ≤ (5 : UInt32).toNat ∧ ∃ mtrx', reverse 5 0 [1, 2, 3, 4, 5, 6] = .ok mtrx' ∧
      mtrx'[0]? = some 5 ∧ mtrx'[2]? = some 3 ∧ mtrx'[5]? = some 6 := by
  obtain ⟨mtrx', hrun, -, hin, hout, -⟩ :=
    reverse_reverses 5 [1, 2, 3, 4, 5, 6] (by decide) (by decide)
  exact ⟨by decide, mtrx', hrun, hin 0 (by decide), hin 2 (by decide), hout 5 (by decide)⟩

/-! ## 4. The matrix of the program -/

/-- The turns of `fill_matrix` number the cells from `i` on and touch no other. -/
theorem fillFrom_spec (m : Nat) (i : UInt32) (hlen : i.toNat + m ≤ mtrx.length)
    (hmax : i.toNat + m < 4294967296) :
    ∃ mtrx', fillFrom m i i mtrx = .ok mtrx' ∧ mtrx'.length = mtrx.length ∧
      ∀ k, mtrx'[k]? =
        if i.toNat ≤ k ∧ k < i.toNat + m then some (UInt32.ofNat (k + 1)) else mtrx[k]? := by
  induction m generalizing i mtrx with
  | zero => exact ⟨mtrx, rfl, rfl, fun k => (if_neg (by omega)).symm⟩
  | succ m ih =>
    have hnext : (i + 1).toNat = i.toNat + 1 := by
      rw [UInt32.toNat_add, UInt32.toNat_one, Nat.mod_eq_of_lt (by omega)]
    have hroom : (i + 1).toNat + m ≤ (mtrx.set i.toNat (i + 1)).length := by
      rw [List.length_set]
      omega
    obtain ⟨mtrx', hrun, hlen', hcell⟩ := ih (i + 1) hroom (by omega)
    refine ⟨mtrx', ?_, by simpa using hlen', fun k => ?_⟩
    · simp only [fillFrom]
      rw [store_ok (by omega), bind_of_ok rfl]
      exact hrun
    · rw [hcell, hnext, List.getElem?_set]
      by_cases hk : k = i.toNat
      · rw [if_neg (by omega), if_pos hk.symm, if_pos (by omega), if_pos (by omega), hk, ← hnext,
          UInt32.ofNat_toNat]
      · rw [if_neg (Ne.symm hk)]
        by_cases hin : i.toNat + 1 ≤ k ∧ k < i.toNat + 1 + m
        · rw [if_pos hin, if_pos (by omega)]
        · rw [if_neg hin, if_neg (by omega)]

/-- The program counts down from `elements_total`: the cells that it fills come out reversed. -/
theorem reverse_of_fillMatrix {elementsTotal : UInt32} (hn : 2 ≤ elementsTotal.toNat)
    (hlen : elementsTotal.toNat ≤ mtrx.length) :
    ∃ mtrx', (fillMatrix elementsTotal mtrx >>= reverse elementsTotal 0) = .ok mtrx' ∧
      ∀ i < elementsTotal.toNat,
        mtrx'[i]? = some (UInt32.ofNat (elementsTotal.toNat - i)) := by
  have hmax := elementsTotal.toNat_lt
  have hroom : (0 : UInt32).toNat + elementsTotal.toNat ≤ mtrx.length := by simpa using hlen
  obtain ⟨filled, hfill, hlen', hcell⟩ :=
    fillFrom_spec elementsTotal.toNat 0 hroom (by simpa using hmax)
  have hfilled : elementsTotal.toNat ≤ filled.length := hlen'.symm ▸ hlen
  obtain ⟨mtrx', hrun, hrev⟩ :=
    reverse_spec 0 hn hfilled ((Nat.le_div_iff_mul_le Nat.two_pos).mpr hn)
  refine ⟨mtrx', (bind_of_ok hfill _).trans hrun, fun i hi => ?_⟩
  have hsucc : elementsTotal.toNat - 1 - i + 1 = elementsTotal.toNat - i := by omega
  rw [hrev.2, if_pos ⟨Nat.zero_le i, hi⟩, hcell,
    if_pos (by simp only [UInt32.toNat_zero]; omega), hsucc]

end ReverseMatrix
end Labs
