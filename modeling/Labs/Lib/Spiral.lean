import Mathlib.Data.List.Chain
import Mathlib.Data.List.Nodup
import Mathlib.Data.List.Range

/-!
# The spiral

The cells of a grid in the order of the clockwise spiral that starts in the upper left corner and ends
inside: the first row from left to right, and then the spiral of what is left, which is another grid,
seen from its right side. It comes to every cell once (`mem_spiral`, `nodup_spiral`) and goes from each
cell to one beside it (`isChain_spiral`).

A program that draws it goes round the border and then does the same inside: `spiral_eq_ring`.

## Why the rest is turned

With the rest of the grid seen from its right side there is one way to go, along the first row, and
a spiral is a list with one recursive case. Its cells, that none comes twice and that each is beside
the next are inductions over that case.

Programs go along four sides and then move on by one row and one column. That is four unfoldings,
the sides turned back to where they are, and behind them the inner grid stands as it did
(`map_turned_inner`). A grid with one row or one column is done before the four are, which is the
case distinction in `ring`.
-/

namespace Labs
namespace Lib

/-- The row and the column. -/
abbrev Cell := Nat × Nat

/-- A cell of the grid below the first row, `columns` wide, that is seen from its right side. -/
def turned (columns : Nat) (p : Cell) : Cell := (p.2 + 1, columns - 1 - p.1)

def spiral : Nat → Nat → List Cell
  | 0, _ => []
  | rows + 1, columns =>
    ((List.range columns).map fun j => (0, j)) ++ (spiral columns rows).map (turned columns)
termination_by rows columns => rows + columns

def Adjacent (p q : Cell) : Prop :=
  p.1 = q.1 ∧ (p.2 + 1 = q.2 ∨ q.2 + 1 = p.2) ∨ p.2 = q.2 ∧ (p.1 + 1 = q.1 ∨ q.1 + 1 = p.1)

/-! ## 1. The cells of the grid -/

theorem spiral_zero_right (rows : Nat) : spiral rows 0 = [] := by
  cases rows with
  | zero => rw [spiral]
  | succ rows => simp [spiral]

theorem length_spiral (rows columns : Nat) : (spiral rows columns).length = rows * columns := by
  induction rows, columns using spiral.induct with
  | case1 columns => simp [spiral]
  | case2 rows columns ih =>
    rw [spiral]
    simp only [List.length_append, List.length_map, List.length_range, ih]
    rw [Nat.succ_mul, Nat.mul_comm columns rows, Nat.add_comm]

theorem mem_spiral (rows columns : Nat) (p : Cell) :
    p ∈ spiral rows columns ↔ p.1 < rows ∧ p.2 < columns := by
  induction rows, columns using spiral.induct generalizing p with
  | case1 columns => simp [spiral]
  | case2 rows columns ih =>
    rw [spiral]
    simp only [List.mem_append, List.mem_map, List.mem_range]
    constructor
    · intro h
      rcases h with ⟨j, hj, rfl⟩ | ⟨q, hq, rfl⟩
      · exact ⟨Nat.succ_pos rows, hj⟩
      · obtain ⟨hrow, hcol⟩ := (ih q).mp hq
        simp only [turned]
        omega
    · intro h
      obtain ⟨i, j⟩ := p
      obtain ⟨hi, hj⟩ := h
      cases i with
      | zero => exact .inl ⟨j, hj, rfl⟩
      | succ i =>
        refine .inr ⟨(columns - 1 - j, i), (ih _).mpr ⟨?_, ?_⟩, ?_⟩
        · dsimp only at hj ⊢
          omega
        · exact Nat.lt_of_succ_lt_succ hi
        · simp only [turned, Prod.mk.injEq, true_and]
          dsimp only at hj
          omega

theorem turned_inj {columns : Nat} {p q : Cell} (hp : p.1 < columns) (hq : q.1 < columns)
    (h : turned columns p = turned columns q) : p = q := by
  obtain ⟨i, j⟩ := p
  obtain ⟨i', j'⟩ := q
  simp only [turned, Prod.mk.injEq] at h hp hq
  simp only [Prod.mk.injEq]
  omega

theorem nodup_spiral (rows columns : Nat) : (spiral rows columns).Nodup := by
  induction rows, columns using spiral.induct with
  | case1 columns => simp [spiral]
  | case2 rows columns ih =>
    rw [spiral, List.nodup_append']
    refine ⟨?_, ?_, ?_⟩
    · exact List.nodup_range.map fun i j h => (Prod.mk.inj h).2
    · apply ih.map_on
      intro p hp q hq h
      exact turned_inj ((mem_spiral _ _ p).mp hp).1 ((mem_spiral _ _ q).mp hq).1 h
    · intro p hfirst hrest
      obtain ⟨j, -, rfl⟩ := List.mem_map.mp hfirst
      obtain ⟨q, -, hq⟩ := List.mem_map.mp hrest
      exact absurd (congrArg Prod.fst hq) (Nat.succ_ne_zero q.2)

/-! ## 2. The way -/

theorem head?_spiral {rows columns : Nat} (hrows : 0 < rows) (hcolumns : 0 < columns) :
    (spiral rows columns).head? = some (0, 0) := by
  obtain ⟨rows, rfl⟩ := Nat.exists_eq_succ_of_ne_zero (Nat.ne_of_gt hrows)
  obtain ⟨columns, rfl⟩ := Nat.exists_eq_succ_of_ne_zero (Nat.ne_of_gt hcolumns)
  rw [spiral, List.range_succ_eq_map]
  rfl

theorem turned_adjacent {columns : Nat} {p q : Cell} (hp : p.1 < columns) (hq : q.1 < columns)
    (h : Adjacent p q) : Adjacent (turned columns p) (turned columns q) := by
  simp only [Adjacent, turned] at h ⊢
  omega

theorem isChain_row (columns : Nat) :
    ((List.range columns).map fun j => ((0, j) : Cell)).IsChain Adjacent := by
  rw [List.isChain_map, List.isChain_range]
  intro j _
  exact .inl ⟨rfl, .inl rfl⟩

/-- The way turns right at the end of the row. -/
theorem adjacent_corner {rows columns : Nat} {p q : Cell}
    (hp : ((List.range columns).map fun j => ((0, j) : Cell)).getLast? = some p)
    (hq : ((spiral columns rows).map (turned columns)).head? = some q) : Adjacent p q := by
  cases columns with
  | zero => cases hp
  | succ columns =>
    cases rows with
    | zero =>
      rw [spiral_zero_right] at hq
      cases hq
    | succ rows =>
      rw [List.range_succ] at hp
      rw [List.head?_map, head?_spiral (Nat.succ_pos columns) (Nat.succ_pos rows)] at hq
      simp only [List.map_append, List.map_cons, List.map_nil, List.getLast?_concat,
        Option.some.injEq] at hp
      cases hq
      rw [← hp]
      exact .inr ⟨rfl, .inl rfl⟩

/-- **The spiral goes from each cell to one beside it.** -/
theorem isChain_spiral (rows columns : Nat) : (spiral rows columns).IsChain Adjacent := by
  induction rows, columns using spiral.induct with
  | case1 columns => simp [spiral]
  | case2 rows columns ih =>
    rw [spiral, List.isChain_append]
    refine ⟨isChain_row columns, ?_, ?_⟩
    · rw [List.isChain_map]
      apply ih.imp_of_mem_imp
      intro p q hp hq h
      exact turned_adjacent ((mem_spiral _ _ p).mp hp).1 ((mem_spiral _ _ q).mp hq).1 h
    · intro p hp q hq
      exact adjacent_corner hp hq

/-! ## 3. Round the border -/

/-- `k` cells further in. -/
def shifted (k : Nat) (p : Cell) : Cell := (k + p.1, k + p.2)

/-- The legs along the border. The lower left corner is the start of the last one. -/
def topLeg (columns : Nat) : List Cell := (List.range columns).map fun j => (0, j)

def rightLeg (rows columns : Nat) : List Cell :=
  (List.range (rows - 1)).map fun i => (i + 1, columns - 1)

def bottomLeg (rows columns : Nat) : List Cell :=
  (List.range (columns - 2)).map fun j => (rows - 1, columns - 2 - j)

def leftLeg (rows : Nat) : List Cell := (List.range (rows - 1)).map fun i => (rows - 1 - i, 0)

/-- The border of a grid that is not empty; of one row or one column there is no way back. -/
def ring (rows columns : Nat) : List Cell :=
  topLeg columns ++ rightLeg rows columns ++
    if rows = 1 ∨ columns = 1 then [] else bottomLeg rows columns ++ leftLeg rows

theorem spiral_one (columns : Nat) : spiral 1 columns = topLeg columns := by
  rw [spiral, spiral_zero_right]
  exact List.append_nil _

theorem spiral_succ (rows columns : Nat) :
    spiral (rows + 1) columns = topLeg columns ++ (spiral columns rows).map (turned columns) := by
  rw [spiral]
  rfl

/-- The third row from the outside, turned back twice, is the lower border with its corner. -/
theorem map_turned_bottom (rows columns : Nat) :
    ((topLeg (columns + 1)).map (turned (rows + 1))).map (turned (columns + 2)) =
      bottomLeg (rows + 2) (columns + 2) ++ [(rows + 1, 0)] := by
  unfold topLeg bottomLeg
  rw [List.range_succ]
  simp only [List.map_append, List.map_map, List.map_cons, List.map_nil]
  congr 1
  · apply List.map_congr_left
    intro j hj
    simp only [Function.comp_apply, turned, Prod.mk.injEq]
    omega
  · simp [turned]

/-- … and the fourth one is the left border without its corners. -/
theorem map_turned_left (rows columns : Nat) :
    (rows + 1, 0) :: (((topLeg rows).map (turned (columns + 1))).map (turned (rows + 1))).map
      (turned (columns + 2)) = leftLeg (rows + 2) := by
  have hlen : rows + 2 - 1 = rows + 1 := rfl
  unfold topLeg leftLeg
  rw [hlen, List.range_succ_eq_map]
  simp only [List.map_map, List.map_cons, Nat.sub_zero, List.cons.injEq, true_and]
  apply List.map_congr_left
  intro i hi
  rw [List.mem_range] at hi
  simp only [Function.comp_apply, turned, Prod.mk.injEq, Nat.succ_eq_add_one]
  omega

/-- Behind four turns the inner grid stands as it is. -/
theorem map_turned_inner (rows columns : Nat) :
    ((((spiral rows columns).map (turned rows)).map (turned (columns + 1))).map
      (turned (rows + 1))).map (turned (columns + 2)) = (spiral rows columns).map (shifted 1) := by
  simp only [List.map_map]
  apply List.map_congr_left
  intro p hp
  obtain ⟨hrow, hcol⟩ := (mem_spiral rows columns p).mp hp
  simp only [Function.comp_apply, turned, shifted, Prod.mk.injEq]
  omega

/-- **The spiral goes round the border, and then inside.** -/
theorem spiral_eq_ring {rows columns : Nat} (hrows : 0 < rows) (hcolumns : 0 < columns) :
    spiral rows columns =
      ring rows columns ++ (spiral (rows - 2) (columns - 2)).map (shifted 1) := by
  rcases rows with _ | _ | rows
  · exact absurd hrows (Nat.lt_irrefl 0)
  · simp [spiral_one, ring, rightLeg, spiral]
  rcases columns with _ | _ | columns
  · exact absurd hcolumns (Nat.lt_irrefl 0)
  · rw [spiral_succ, spiral_one, ring, if_pos (.inr rfl), spiral_zero_right]
    simp [rightLeg, topLeg, turned, Function.comp_def]
  · have hright : (topLeg (rows + 1)).map (turned (columns + 2)) =
        rightLeg (rows + 2) (columns + 2) := by
      simp [topLeg, rightLeg, turned, Function.comp_def]
    rw [spiral_succ, spiral_succ (columns + 1), spiral_succ rows, spiral_succ columns]
    simp only [List.map_append, hright, map_turned_bottom, map_turned_inner]
    rw [ring, if_neg (by omega), ← map_turned_left rows columns]
    simp

end Lib
end Labs
