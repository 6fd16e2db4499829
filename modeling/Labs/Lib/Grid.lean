import Mathlib.Algebra.BigOperators.Fin
import Mathlib.Algebra.Order.BigOperators.Group.Finset
import Mathlib.Data.List.OfFn
import Mathlib.Data.Matrix.Mul

/-!
# Matrices in memory

A matrix of a program is a list of rows, and a row a list of cells; both are read and written by
number, and a number past the end is not a cell. `ofMatrix` lays a matrix out, and a list of rows of
the right shape is the layout of the matrix that its cells are those of (`eq_ofMatrix`).

`dot A B i k j` is what the loop of a product has in its sum after `j` of its turns.
-/

namespace Labs
namespace Lib

/-! ## 1. Rows of cells -/

section Cells

variable {α : Type} {g g' : List (List α)} {r c i j : Nat} {x : α}

def cell (g : List (List α)) (i j : Nat) : Option α := g[i]?.bind fun row => row[j]?

def setCell (g : List (List α)) (i j : Nat) (x : α) : Option (List (List α)) :=
  g[i]?.bind fun row => if j < row.length then some (g.set i (row.set j x)) else none

/-- `r` rows of `c` cells. -/
def Shaped (g : List (List α)) (r c : Nat) : Prop :=
  g.length = r ∧ ∀ i < r, ∃ row, g[i]? = some row ∧ row.length = c

theorem setCell_isSome (h : Shaped g r c) (hi : i < r) (hj : j < c) (x : α) :
    ∃ g', setCell g i j x = some g' := by
  obtain ⟨row, hrow, hlen⟩ := h.2 i hi
  refine ⟨g.set i (row.set j x), ?_⟩
  unfold setCell
  rw [hrow, Option.bind_some, if_pos (hlen.symm ▸ hj)]

/-- What a row is after a write to one of its cells. -/
theorem setCell_cases (h : setCell g i j x = some g') :
    ∃ row, g[i]? = some row ∧ j < row.length ∧ g' = g.set i (row.set j x) := by
  obtain ⟨row, hrow, hset⟩ := Option.bind_eq_some_iff.mp h
  split at hset
  · rename_i hj
    cases hset
    exact ⟨row, hrow, hj, rfl⟩
  · cases hset

theorem cell_setCell (h : setCell g i j x = some g') : cell g' i j = some x := by
  obtain ⟨row, hrow, hj, rfl⟩ := setCell_cases h
  obtain ⟨hi, -⟩ := List.getElem?_eq_some_iff.mp hrow
  simp [cell, hi, hj]

theorem cell_setCell_of_ne (h : setCell g i j x = some g') {k l : Nat} (hne : k ≠ i ∨ l ≠ j) :
    cell g' k l = cell g k l := by
  obtain ⟨row, hrow, hj, rfl⟩ := setCell_cases h
  obtain ⟨hi, -⟩ := List.getElem?_eq_some_iff.mp hrow
  unfold cell
  by_cases hk : k = i
  · subst hk
    have hl : j ≠ l := fun e => hne.elim (fun hkk => hkk rfl) (fun hll => hll e.symm)
    rw [List.getElem?_set_self hi, hrow, Option.bind_some, Option.bind_some,
      List.getElem?_set_ne hl]
  · rw [List.getElem?_set_ne (Ne.symm hk)]

theorem Shaped.setCell (hs : Shaped g r c) (h : setCell g i j x = some g') : Shaped g' r c := by
  obtain ⟨row, hrow, -, rfl⟩ := setCell_cases h
  refine ⟨(List.length_set ..).trans hs.1, fun k hk => ?_⟩
  obtain ⟨row', hrow', hlen⟩ := hs.2 k hk
  by_cases hki : k = i
  · subst hki
    cases hrow.symm.trans hrow'
    refine ⟨row.set j x, List.getElem?_set_self (hs.1.symm ▸ hk), ?_⟩
    rw [List.length_set, hlen]
  · exact ⟨row', (List.getElem?_set_ne (Ne.symm hki)).trans hrow', hlen⟩

end Cells

/-! ## 2. The layout of a matrix -/

section Layout

variable {α : Type} {r c : Nat}

def ofMatrix (M : Matrix (Fin r) (Fin c) α) : List (List α) := List.ofFn fun i => List.ofFn (M i)

/-- The entries of a matrix, with zeros around it. -/
def entry [Zero α] (M : Matrix (Fin r) (Fin c) α) (i j : Nat) : α :=
  if h : i < r ∧ j < c then M ⟨i, h.1⟩ ⟨j, h.2⟩ else 0

theorem entry_fin [Zero α] (M : Matrix (Fin r) (Fin c) α) (i : Fin r) (j : Fin c) :
    entry M i j = M i j :=
  dif_pos ⟨i.isLt, j.isLt⟩

theorem entry_nonneg {M : Matrix (Fin r) (Fin c) Int} (h : ∀ i j, 0 ≤ M i j) (i j : Nat) :
    0 ≤ entry M i j := by
  unfold entry
  split
  · exact h _ _
  · exact le_rfl

theorem getElem?_ofMatrix (M : Matrix (Fin r) (Fin c) α) {i : Nat} (hi : i < r) :
    (ofMatrix M)[i]? = some (List.ofFn (M ⟨i, hi⟩)) := by
  rw [List.getElem?_eq_getElem (by simpa [ofMatrix] using hi)]
  simp [ofMatrix]

theorem cell_ofMatrix [Zero α] (M : Matrix (Fin r) (Fin c) α) {i j : Nat} (hi : i < r)
    (hj : j < c) : cell (ofMatrix M) i j = some (entry M i j) := by
  unfold cell entry
  rw [getElem?_ofMatrix M hi, Option.bind_some, dif_pos ⟨hi, hj⟩,
    List.getElem?_eq_getElem (by simpa using hj)]
  simp

theorem shaped_ofMatrix (M : Matrix (Fin r) (Fin c) α) : Shaped (ofMatrix M) r c :=
  ⟨List.length_ofFn, fun _ hi => ⟨_, getElem?_ofMatrix M hi, List.length_ofFn⟩⟩

theorem eq_ofMatrix [Zero α] {g : List (List α)} {M : Matrix (Fin r) (Fin c) α}
    (hs : Shaped g r c) (hcell : ∀ i < r, ∀ j < c, cell g i j = some (entry M i j)) :
    g = ofMatrix M := by
  apply List.ext_getElem?
  intro i
  by_cases hi : i < r
  · obtain ⟨row, hrow, hlen⟩ := hs.2 i hi
    rw [hrow, getElem?_ofMatrix M hi]
    refine congrArg some (List.ext_getElem? fun j => ?_)
    by_cases hj : j < c
    · have hread := (hcell i hi j hj).trans (cell_ofMatrix M hi hj).symm
      unfold cell at hread
      rw [hrow, getElem?_ofMatrix M hi] at hread
      exact hread
    · rw [List.getElem?_eq_none (by omega),
        List.getElem?_eq_none (by simpa using Nat.not_lt.mp hj)]
  · rw [List.getElem?_eq_none (hs.1.symm ▸ Nat.not_lt.mp hi),
      List.getElem?_eq_none (by simpa [ofMatrix] using Nat.not_lt.mp hi)]

end Layout

/-! ## 3. The sum of a product -/

section Dot

variable {r n c : Nat} {A : Matrix (Fin r) (Fin n) Int} {B : Matrix (Fin n) (Fin c) Int}

/-- The first `j` terms of the entry at `i` and `k` of the product. -/
def dot (A : Matrix (Fin r) (Fin n) Int) (B : Matrix (Fin n) (Fin c) Int) (i k j : Nat) : Int :=
  ∑ l ∈ Finset.range j, entry A i l * entry B l k

@[simp] theorem dot_zero (i k : Nat) : dot A B i k 0 = 0 := rfl

theorem dot_succ (i k j : Nat) :
    dot A B i k (j + 1) = dot A B i k j + entry A i j * entry B j k :=
  Finset.sum_range_succ _ j

/-- All the terms make the entry. -/
theorem dot_all {i k : Nat} (hi : i < r) (hk : k < c) : dot A B i k n = entry (A * B) i k := by
  unfold dot
  rw [Finset.sum_range, show entry (A * B) i k = _ from entry_fin (A * B) ⟨i, hi⟩ ⟨k, hk⟩,
    Matrix.mul_apply]
  refine Finset.sum_congr rfl fun l _ => ?_
  rw [← entry_fin A, ← entry_fin B]

variable (hA : ∀ i j, 0 ≤ A i j) (hB : ∀ i j, 0 ≤ B i j)
include hA hB

theorem term_nonneg (i k l : Nat) : 0 ≤ entry A i l * entry B l k :=
  mul_nonneg (entry_nonneg hA i l) (entry_nonneg hB l k)

theorem dot_nonneg (i k j : Nat) : 0 ≤ dot A B i k j :=
  Finset.sum_nonneg fun l _ => term_nonneg hA hB i k l

theorem dot_mono {i k j j' : Nat} (h : j ≤ j') : dot A B i k j ≤ dot A B i k j' :=
  Finset.sum_le_sum_of_subset_of_nonneg (Finset.range_mono h)
    fun l _ _ => term_nonneg hA hB i k l

end Dot

end Lib
end Labs
