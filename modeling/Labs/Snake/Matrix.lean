import Labs.Snake.Filling

/-!
# The matrix behind `snake_matrix`

What the stores of `Filling` leave in the matrix. No cell is stored to twice, so each holds the number it
was given (`contents_of_mem`): in both versions cell number `k` of the spiral holds `k + 1`
(`flat_holds`, `array_holds`).

## Words and numbers

The source computes in 32 bits, and the spiral is one of natural numbers. `Filling` has compared
them: what is stored and where, read as numbers, is the spiral with its numbers from `1` on. What is
left to show is that no two stores go to the same word. A cell has an offset below `rows * columns`,
different cells have different ones (`offset_inj`), and a number of that size is not changed by
being made a word.

The two versions are not compared with each other. A cell of the spiral has a number, and either
version leaves that number in it, the one at the offset and the other at the row and the column
(`versions_agree`).
-/

namespace Labs
namespace Snake

open Lib

variable {ι : Type} [DecidableEq ι] {rows columns : UInt32}

/-! ## 1. Stores -/

theorem contents_cons (mtrx : ι → UInt32) (s : ι × UInt32) (stores : Stores ι) :
    contents mtrx (s :: stores) = contents (Function.update mtrx s.1 s.2) stores := rfl

theorem contents_of_not_mem {mtrx : ι → UInt32} {stores : Stores ι} {i : ι}
    (h : i ∉ stores.map Prod.fst) : contents mtrx stores i = mtrx i := by
  induction stores generalizing mtrx with
  | nil => rfl
  | cons s stores ih =>
    simp only [List.map_cons, List.mem_cons, not_or] at h
    rw [contents_cons, ih h.2, Function.update_of_ne h.1]

theorem contents_of_mem {mtrx : ι → UInt32} {stores : Stores ι} {i : ι} {v : UInt32}
    (hnodup : (stores.map Prod.fst).Nodup) (h : (i, v) ∈ stores) : contents mtrx stores i = v := by
  induction stores generalizing mtrx with
  | nil => exact absurd h List.not_mem_nil
  | cons s stores ih =>
    rw [List.map_cons, List.nodup_cons] at hnodup
    rw [contents_cons]
    rcases List.mem_cons.mp h with rfl | h
    · rw [contents_of_not_mem hnodup.1]
      exact Function.update_self ..
    · exact ih hnodup.2 h

/-! ## 2. The cells and their indices -/

theorem offset_inj {c : Nat} {p q : Cell} (hp : p.2 < c) (hq : q.2 < c)
    (h : offset c p = offset c q) : p = q := by
  have hdiv : ∀ s : Cell, s.2 < c → offset c s / c = s.1 := by
    intro s hs
    rw [offset, Nat.add_comm, Nat.add_mul_div_right _ _ (Nat.zero_lt_of_lt hs), Nat.div_eq_of_lt hs,
      Nat.zero_add]
  have hmod : ∀ s : Cell, s.2 < c → offset c s % c = s.2 := by
    intro s hs
    rw [offset, Nat.mul_add_mod_self_right, Nat.mod_eq_of_lt hs]
  exact Prod.ext (by rw [← hdiv p hp, h, hdiv q hq]) (by rw [← hmod p hp, h, hmod q hq])

theorem nodup_offsets (r c : Nat) : ((spiral r c).map (offset c)).Nodup := by
  apply (nodup_spiral r c).map_on
  intro p hp q hq h
  exact offset_inj ((mem_spiral r c p).mp hp).2 ((mem_spiral r c q).mp hq).2 h

/-- The spiral comes to every index of the matrix. -/
theorem offsets_perm (r c : Nat) : ((spiral r c).map (offset c)).Perm (List.range (r * c)) := by
  rw [List.perm_ext_iff_of_nodup (nodup_offsets r c) List.nodup_range]
  intro k
  simp only [List.mem_map, List.mem_range, mem_spiral]
  constructor
  · intro h
    obtain ⟨p, ⟨hrow, hcol⟩, rfl⟩ := h
    exact offset_lt hrow hcol
  · intro h
    have hc : 0 < c := by
      apply Nat.pos_of_ne_zero
      intro hzero
      rw [hzero] at h
      exact absurd h (Nat.not_lt_zero k)
    refine ⟨(k / c, k % c), ⟨?_, Nat.mod_lt k hc⟩, ?_⟩
    · exact Nat.div_lt_of_lt_mul (by rwa [Nat.mul_comm c r])
    · exact Nat.div_add_mod' k c

/-! ## 3. The numbers -/

section

variable (hsize : rows.toNat * columns.toNat < 2147483648)

include hsize

theorem flat_indices :
    ((snakeMatrix rows columns).map fun s => s.1.toNat) =
      (spiral rows.toNat columns.toNat).map (offset columns.toNat) := by
  have hstores := congrArg (List.map Prod.fst) (snakeMatrix_stores hsize)
  rw [List.map_map, List.zipIdx_map_fst] at hstores
  exact hstores

theorem flat_nodup : ((snakeMatrix rows columns).map Prod.fst).Nodup := by
  apply List.Nodup.of_map UInt32.toNat
  rw [List.map_map]
  exact (flat_indices hsize).symm ▸ nodup_offsets _ _

theorem array_nodup : ((snakeMatrixArray rows columns).map Prod.fst).Nodup := by
  have hstores := congrArg (List.map Prod.fst) (snakeMatrixArray_stores hsize)
  rw [List.map_map, List.zipIdx_map_fst] at hstores
  apply List.Nodup.of_map cellOfWords
  rw [List.map_map]
  exact hstores.symm ▸ nodup_spiral _ _

/-- With a pointer, cell number `k` of the spiral holds `k + 1`. -/
theorem flat_holds {k : Nat} {p : Cell} (mtrx : UInt32 → UInt32)
    (hk : (spiral rows.toNat columns.toNat)[k]? = some p) :
    contents mtrx (snakeMatrix rows columns) (UInt32.ofNat (offset columns.toNat p)) =
      UInt32.ofNat (k + 1) := by
  apply contents_of_mem (flat_nodup hsize)
  have hmem : (offset columns.toNat p, k + 1) ∈
      (snakeMatrix rows columns).map fun s => (s.1.toNat, s.2.toNat) := by
    rw [snakeMatrix_stores hsize, List.mk_mem_zipIdx_iff_le_and_getElem?_sub, List.getElem?_map]
    simp [hk]
  obtain ⟨⟨i, v⟩, hs, hiv⟩ := List.mem_map.mp hmem
  obtain ⟨hi, hv⟩ := Prod.mk.inj hiv
  rw [← hi, ← hv, UInt32.ofNat_toNat, UInt32.ofNat_toNat]
  exact hs

/-- … and so it does with an array. -/
theorem array_holds {k : Nat} {p : Cell} (mtrx : UInt32 × UInt32 → UInt32)
    (hk : (spiral rows.toNat columns.toNat)[k]? = some p) :
    contents mtrx (snakeMatrixArray rows columns) (UInt32.ofNat p.1, UInt32.ofNat p.2) =
      UInt32.ofNat (k + 1) := by
  apply contents_of_mem (array_nodup hsize)
  have hmem : (p, k + 1) ∈
      (snakeMatrixArray rows columns).map fun s => (cellOfWords s.1, s.2.toNat) := by
    rw [snakeMatrixArray_stores hsize, List.mk_mem_zipIdx_iff_le_and_getElem?_sub]
    simp [hk]
  obtain ⟨⟨⟨i, j⟩, v⟩, hs, hiv⟩ := List.mem_map.mp hmem
  obtain ⟨hij, hv⟩ := Prod.mk.inj hiv
  rw [← hij, ← hv]
  simp only [cellOfWords, UInt32.ofNat_toNat]
  exact hs

end

/-- For the sizes that `main` accepts every index is one of `arr`. -/
theorem accepted_in_bounds (h : accepted rows columns = true) :
    ∀ s ∈ snakeMatrix rows columns, s.1.toNat < ROWMAX.toNat * COLMAX.toNat := by
  intro s hs
  obtain ⟨-, -, hsize⟩ := size_of_accepted h
  have hmem : s.1.toNat ∈ (snakeMatrix rows columns).map fun s => s.1.toNat := List.mem_map_of_mem hs
  rw [flat_indices (Nat.lt_trans hsize (by decide)), (offsets_perm _ _).mem_iff, List.mem_range] at hmem
  exact Nat.lt_trans hmem hsize

/-! ## 4. The snake -/

/-- The matrix of a snake: `stores` go along the spiral, to every cell once, and leave the numbers from
    `1` on in cells that are next to each other. -/
structure IsSnake (rows columns : Nat) (mtrx : UInt32 → UInt32) (stores : Stores UInt32) : Prop where
  path : (stores.map fun s => (s.1.toNat, s.2.toNat)) =
    ((spiral rows columns).map (offset columns)).zipIdx 1
  once : (stores.map fun s => s.1.toNat).Perm (List.range (rows * columns))
  rest : ∀ i, rows * columns ≤ i.toNat → contents mtrx stores i = mtrx i
  first : (contents mtrx stores (UInt32.ofNat (offset columns (0, 0)))).toNat = 1
  next : ∀ v, 0 < v → v < rows * columns → ∃ p q, Adjacent p q ∧
    (p.1 < rows ∧ p.2 < columns) ∧ (q.1 < rows ∧ q.2 < columns) ∧
    (contents mtrx stores (UInt32.ofNat (offset columns p))).toNat = v ∧
    (contents mtrx stores (UInt32.ofNat (offset columns q))).toNat = v + 1
  values : ((List.range (rows * columns)).map fun i =>
    (contents mtrx stores (UInt32.ofNat i)).toNat).Perm (List.range' 1 (rows * columns))

theorem toNat_held {k : Nat} {p : Cell} (hsize : rows.toNat * columns.toNat < 2147483648)
    (mtrx : UInt32 → UInt32) (hk : (spiral rows.toNat columns.toNat)[k]? = some p) :
    (contents mtrx (snakeMatrix rows columns) (UInt32.ofNat (offset columns.toNat p))).toNat =
      k + 1 := by
  have hlt := (List.getElem?_eq_some_iff.mp hk).1
  rw [length_spiral] at hlt
  rw [flat_holds hsize mtrx hk, toNat_ofNat (by omega)]

theorem flat_values (hsize : rows.toNat * columns.toNat < 2147483648) (mtrx : UInt32 → UInt32) :
    ((spiral rows.toNat columns.toNat).map (offset columns.toNat)).map
        (fun i => (contents mtrx (snakeMatrix rows columns) (UInt32.ofNat i)).toNat) =
      List.range' 1 (rows.toNat * columns.toNat) := by
  apply List.ext_getElem
  · simp [length_spiral]
  · intro k hk hk'
    simp only [List.length_map] at hk
    simp only [List.getElem_map, List.getElem_range']
    rw [toNat_held hsize mtrx (List.getElem?_eq_getElem hk)]
    omega

/-- **`snake_matrix` fills the matrix as a snake**, of every size that an `int` can count. -/
theorem snake_fill (rows columns : UInt32) (hrows : 1 ≤ rows.toNat) (hcolumns : 1 ≤ columns.toNat)
    (hsize : rows.toNat * columns.toNat < 2147483648) (mtrx : UInt32 → UInt32) :
    IsSnake rows.toNat columns.toNat mtrx (snakeMatrix rows columns) where
  path := snakeMatrix_stores hsize
  once := by
    rw [flat_indices hsize]
    exact offsets_perm _ _
  rest := by
    intro i hi
    apply contents_of_not_mem
    intro hmem
    have hindex : i.toNat ∈ (snakeMatrix rows columns).map fun s => s.1.toNat := by
      obtain ⟨s, hs, rfl⟩ := List.mem_map.mp hmem
      exact List.mem_map_of_mem hs
    rw [flat_indices hsize, (offsets_perm _ _).mem_iff, List.mem_range] at hindex
    exact absurd hi (Nat.not_le_of_lt hindex)
  first := by
    apply toNat_held hsize mtrx
    rw [← List.head?_eq_getElem?]
    exact head?_spiral hrows hcolumns
  next := by
    intro v hpos hlt
    obtain ⟨k, rfl⟩ := Nat.exists_eq_succ_of_ne_zero (Nat.ne_of_gt hpos)
    have hk : k + 1 < (spiral rows.toNat columns.toNat).length := by
      rw [length_spiral]
      exact hlt
    have hp := List.getElem?_eq_getElem (Nat.lt_of_succ_lt hk)
    have hq := List.getElem?_eq_getElem hk
    refine ⟨_, _, (isChain_spiral _ _).getElem k hk, ?_, ?_, toNat_held hsize mtrx hp,
      toNat_held hsize mtrx hq⟩
    · exact (mem_spiral _ _ _).mp (List.mem_of_getElem? hp)
    · exact (mem_spiral _ _ _).mp (List.mem_of_getElem? hq)
  values := by
    rw [← flat_values hsize mtrx]
    exact ((offsets_perm _ _).map _).symm

theorem snake_fill_tall : IsSnake 5 3 (fun _ => 0) (snakeMatrix 5 3) :=
  snake_fill 5 3 (by decide) (by decide) (by decide) fun _ => 0

/-- **The two versions agree**: what one leaves at `row * columns + column` the other leaves at
    `[row][column]`. -/
theorem versions_agree (rows columns row column : UInt32)
    (hsize : rows.toNat * columns.toNat < 2147483648) (hrow : row < rows) (hcolumn : column < columns)
    (flat : UInt32 → UInt32) (array : UInt32 × UInt32 → UInt32) :
    contents flat (snakeMatrix rows columns) (row * columns + column) =
      contents array (snakeMatrixArray rows columns) (row, column) := by
  have hmem : (row.toNat, column.toNat) ∈ spiral rows.toNat columns.toNat :=
    (mem_spiral _ _ _).mpr ⟨UInt32.lt_iff_toNat_lt.mp hrow, UInt32.lt_iff_toNat_lt.mp hcolumn⟩
  obtain ⟨k, hk⟩ := List.mem_iff_getElem?.mp hmem
  have hflat := flat_holds hsize flat hk
  have harray := array_holds hsize array hk
  simp only [offset, UInt32.ofNat_add, UInt32.ofNat_mul, UInt32.ofNat_toNat] at hflat harray
  rw [hflat, harray]

theorem versions_agree_wide :
    contents (fun _ => 0) (snakeMatrix 3 5) (1 * 5 + 2) =
      contents (fun _ => 0) (snakeMatrixArray 3 5) (1, 2) :=
  versions_agree 3 5 1 2 (by decide) (by decide) (by decide) (fun _ => 0) fun _ => 0

end Snake
end Labs
