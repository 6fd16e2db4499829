import Labs.Lib.Spiral
import Labs.Snake.Program

/-!
# The snake goes along the spiral

Each of the four loops of a round is a leg of the border of the part of the matrix that is left, stored
with the numbers behind `counter`: `Numbered`. `fill_spec` is the rule for such a loop; it ends because
its guard fails, or because `counter` has come to `rows * columns`. When only one row or one column is
left, this is what stops the way back, where the bounds would not, or have wrapped around.

So a round stores to the border of what is left, `ring`, and the rounds to the whole spiral
(`rounds_spec`). There are as many rounds as the columns need; if the matrix is wider than high the last
ones store nothing.

## From words to cells

The source counts in unsigned words, and some of its bounds wrap around: in the last round of a
matrix with few rows, `rows * columns - columns * (depth + 1)` may be less than zero. The lemmas
about a loop are therefore about its guard on words, for each of the values its variable takes
(`fill_spec`), and the guards are evaluated once for each leg (`flatTop_spec`, …, `arrayLeft_spec`).
Behind these eight lemmas no word is left: `Loops` has the legs as lists of cells, and the rounds
are a recursion on those.

The two versions meet in `Loops` as well. One stores through a pointer, so its cells are indices,
the other has two indices; `view` and `cellOf` say what a store of each of them is about. What is
said of the rounds is said once, and both programs are instances (`flat_loops`, `array_loops`).

A loop that finds `counter` at its bound stores nothing and changes nothing, which is `done`. This
is the only way in which the last round is special, and it is what makes `rounds_spec` hold without
a case for matrices of one row or of one column.
-/

namespace Labs
namespace Snake

open Lib

variable {ι α : Type} {view : ι → α} {r c d n m total : Nat}

/-- The stores are to `cells`, with the numbers behind `n`. -/
def Numbered (view : ι → α) (r : Stores ι × UInt32) (cells : List α) (n : Nat) : Prop :=
  (r.1.map fun s => (view s.1, s.2.toNat)) = cells.zipIdx (n + 1) ∧
    r.2 = UInt32.ofNat (n + cells.length)

theorem Numbered.append {s t : Stores ι × UInt32} {cells cells' : List α}
    (h : Numbered view s cells n) (h' : Numbered view t cells' (n + cells.length)) :
    Numbered view (s.1 ++ t.1, t.2) (cells ++ cells') n := by
  constructor
  · rw [List.map_append, h.1, h'.1, List.zipIdx_append, Nat.add_right_comm]
  · rw [h'.2, List.length_append, Nat.add_assoc]

/-! ## 1. One loop -/

theorem ofNat_lt_ofNat {a b : Nat} (ha : a < 4294967296) (hb : b < 4294967296) :
    UInt32.ofNat a < UInt32.ofNat b ↔ a < b := UInt32.ofNat_lt_iff_lt ha hb

theorem toNat_ofNat {a : Nat} (ha : a < 4294967296) : (UInt32.ofNat a).toNat = a :=
  UInt32.toNat_ofNat_of_lt' ha

theorem fill_done (guard : UInt32 → Bool) (next : UInt32 → UInt32) (cell : UInt32 → ι) (x t : UInt32) :
    fill t guard next cell x t = ([], t) := by
  rw [fill, dif_neg fun h => UInt32.lt_irrefl t h.1]

/-- A loop whose variable takes the values `xs` stores to the cells `target`, as long as its guard holds;
    then it ends, or `counter` is at its bound. -/
theorem fill_spec {guard : UInt32 → Bool} {next : UInt32 → UInt32} {cell : UInt32 → ι}
    {xs : Nat → Nat} {target : Nat → α}
    (hnext : ∀ k < m, next (UInt32.ofNat (xs k)) = UInt32.ofNat (xs (k + 1)))
    (hguard : ∀ k < m, guard (UInt32.ofNat (xs k)) = true)
    (hcell : ∀ k < m, view (cell (UInt32.ofNat (xs k))) = target k)
    (htotal : total < 4294967296) (hle : n + m ≤ total)
    (hend : n + m = total ∨ guard (UInt32.ofNat (xs m)) = false) :
    Numbered view (fill (UInt32.ofNat total) guard next cell (UInt32.ofNat (xs 0)) (UInt32.ofNat n))
      ((List.range m).map target) n := by
  induction m generalizing n xs target with
  | zero =>
    have hstop : ¬ (UInt32.ofNat n < UInt32.ofNat total ∧ guard (UInt32.ofNat (xs 0)) = true) := by
      rw [ofNat_lt_ofNat (by omega) htotal]
      rcases hend with hend | hend
      · omega
      · simp [hend]
    rw [fill, dif_neg hstop]
    exact ⟨rfl, rfl⟩
  | succ m ih =>
    have hgo : UInt32.ofNat n < UInt32.ofNat total ∧ guard (UInt32.ofNat (xs 0)) = true := by
      rw [ofNat_lt_ofNat (by omega) htotal]
      exact ⟨by omega, hguard 0 (Nat.succ_pos m)⟩
    have hlen : n + (m + 1) = n + 1 + m := by omega
    rw [hlen] at hle hend
    have hrest := @ih (n + 1) (fun k => xs (k + 1)) (fun k => target (k + 1))
      (fun k hk => hnext (k + 1) (Nat.succ_lt_succ hk))
      (fun k hk => hguard (k + 1) (Nat.succ_lt_succ hk))
      (fun k hk => hcell (k + 1) (Nat.succ_lt_succ hk)) hle hend
    have hcounter : UInt32.ofNat n + 1 = UInt32.ofNat (n + 1) := (UInt32.ofNat_add n 1).symm
    have hvalue : (UInt32.ofNat (n + 1)).toNat = n + 1 := toNat_ofNat (by omega)
    rw [fill, dif_pos hgo, hnext 0 (Nat.succ_pos m), hcounter, List.range_succ_eq_map]
    constructor
    · simp only [List.map_cons, List.map_map, List.zipIdx_cons, hvalue, hcell 0 (Nat.succ_pos m)]
      exact congrArg _ hrest.1
    · rw [hrest.2]
      simp only [List.length_map, List.length_range, List.length_cons]
      rw [hlen]

/-! ## 2. The legs, with a pointer -/

/-- The index of a cell. -/
def offset (columns : Nat) (p : Cell) : Nat := p.1 * columns + p.2

theorem offset_lt {p : Cell} (hrow : p.1 < r) (hcol : p.2 < c) : offset c p < r * c := by
  have hle : (p.1 + 1) * c ≤ r * c := Nat.mul_le_mul_right c hrow
  rw [Nat.succ_mul] at hle
  unfold offset
  omega

/-- An index computed from an offset and a column. -/
theorem toNat_index {i j : Nat} (hsize : r * c < 2147483648) (hi : i < r) (hj : j < c) :
    (UInt32.ofNat (c * i) + UInt32.ofNat j).toNat = offset c (i, j) := by
  have hlt := offset_lt (p := (i, j)) hi hj
  rw [← UInt32.ofNat_add, Nat.mul_comm c i]
  exact toNat_ofNat (Nat.lt_trans hlt (by omega))

/-- `rows * columns - columns * k` -/
theorem offset_below {k : Nat} (hk : k ≤ r) :
    UInt32.ofNat (r * c) - UInt32.ofNat (c * k) = UInt32.ofNat (c * (r - k)) := by
  rw [← UInt32.ofNat_sub (by rw [Nat.mul_comm r c]; exact Nat.mul_le_mul_left c hk),
    Nat.mul_comm r c, Nat.mul_sub]

theorem flatTop_spec (hsize : r * c < 2147483648) (hr : 2 * d < r) (hc : 2 * d < c)
    (hroom : n + (c - 2 * d) ≤ r * c) :
    Numbered UInt32.toNat
      (flatTop (UInt32.ofNat r) (UInt32.ofNat c) (UInt32.ofNat d) (UInt32.ofNat n))
      ((topLeg (c - 2 * d)).map fun p => offset c (shifted d p)) n := by
  have hcr : c ≤ r * c := Nat.le_mul_of_pos_left c (by omega)
  unfold flatTop topLeg
  rw [← UInt32.ofNat_mul, ← UInt32.ofNat_mul, List.map_map]
  apply @fill_spec _ _ _ n (c - 2 * d) (r * c) _ _ _ (fun k => d + k)
  · intro k hk
    exact (UInt32.ofNat_add (d + k) 1).symm
  · intro k hk
    rw [← UInt32.ofNat_sub (by omega), decide_eq_true_iff, ofNat_lt_ofNat (by omega) (by omega)]
    omega
  · intro k hk
    exact toNat_index hsize (by omega) (by omega)
  · omega
  · exact hroom
  · right
    rw [← UInt32.ofNat_sub (by omega), decide_eq_false_iff_not, ofNat_lt_ofNat (by omega) (by omega)]
    omega

theorem ofNat_succ (k : Nat) : UInt32.ofNat k + 1 = UInt32.ofNat (k + 1) :=
  (UInt32.ofNat_add k 1).symm

/-- Offsets are compared as rows are. -/
theorem scaled_lt {i j : Nat} (hsize : r * c < 2147483648) (hc : 0 < c) (hi : i ≤ r) (hj : j ≤ r) :
    UInt32.ofNat (c * i) < UInt32.ofNat (c * j) ↔ i < j := by
  have hlt : ∀ k ≤ r, c * k < 4294967296 := by
    intro k hk
    have hle := Nat.mul_le_mul_left c hk
    rw [Nat.mul_comm c r] at hle
    omega
  rw [ofNat_lt_ofNat (hlt i hi) (hlt j hj), Nat.mul_lt_mul_left hc]

theorem flatRight_spec (hsize : r * c < 2147483648) (hr : 2 * d < r) (hc : 2 * d < c)
    (hroom : n + (r - 2 * d - 1) ≤ r * c) :
    Numbered UInt32.toNat
      (flatRight (UInt32.ofNat r) (UInt32.ofNat c) (UInt32.ofNat d) (UInt32.ofNat n))
      ((rightLeg (r - 2 * d) (c - 2 * d)).map fun p => offset c (shifted d p)) n := by
  have hcr : c ≤ r * c := Nat.le_mul_of_pos_left c (by omega)
  have hcolumn : UInt32.ofNat c - UInt32.ofNat d - 1 = UInt32.ofNat (c - d - 1) := by
    rw [← UInt32.ofNat_sub (by omega), ← UInt32.ofNat_one, ← UInt32.ofNat_sub (by omega)]
  unfold flatRight rightLeg
  rw [ofNat_succ, hcolumn, ← UInt32.ofNat_mul, ← UInt32.ofNat_mul, ← UInt32.ofNat_mul,
    offset_below (by omega), List.map_map]
  apply @fill_spec _ _ _ n (r - 2 * d - 1) (r * c) _ _ _ (fun k => c * (d + 1 + k))
  · intro k hk
    rw [← UInt32.ofNat_add]
    rfl
  · intro k hk
    rw [decide_eq_true_iff, scaled_lt hsize (by omega) (by omega) (by omega)]
    omega
  · intro k hk
    rw [toNat_index hsize (by omega) (by omega)]
    simp only [Function.comp_apply, offset, shifted]
    congr 2 <;> omega
  · omega
  · exact hroom
  · right
    rw [decide_eq_false_iff_not, scaled_lt hsize (by omega) (by omega) (by omega)]
    omega

theorem flatBottom_spec (hsize : r * c < 2147483648) (hr : 2 * d + 1 < r) (hc : 2 * d + 1 < c)
    (hroom : n + (c - 2 * d - 2) ≤ r * c) :
    Numbered UInt32.toNat
      (flatBottom (UInt32.ofNat r) (UInt32.ofNat c) (UInt32.ofNat d) (UInt32.ofNat n))
      ((bottomLeg (r - 2 * d) (c - 2 * d)).map fun p => offset c (shifted d p)) n := by
  have hcr : c ≤ r * c := Nat.le_mul_of_pos_left c (by omega)
  have hcolumn : UInt32.ofNat c - 2 - UInt32.ofNat d = UInt32.ofNat (c - 2 - d) := by
    have htwo : (2 : UInt32) = UInt32.ofNat 2 := rfl
    rw [htwo, ← UInt32.ofNat_sub (by omega), ← UInt32.ofNat_sub (by omega)]
  unfold flatBottom bottomLeg
  rw [ofNat_succ, hcolumn, ← UInt32.ofNat_mul, ← UInt32.ofNat_mul, offset_below (by omega),
    List.map_map]
  apply @fill_spec _ _ _ n (c - 2 * d - 2) (r * c) _ _ _ (fun k => c - 2 - d - k)
  · intro k hk
    rw [← UInt32.ofNat_one, ← UInt32.ofNat_sub (by omega)]
    rfl
  · intro k hk
    rw [decide_eq_true_iff, gt_iff_lt, ofNat_lt_ofNat (by omega) (by omega)]
    omega
  · intro k hk
    rw [toNat_index hsize (by omega) (by omega)]
    simp only [Function.comp_apply, offset, shifted]
    congr 2 <;> omega
  · omega
  · exact hroom
  · right
    rw [decide_eq_false_iff_not, gt_iff_lt, ofNat_lt_ofNat (by omega) (by omega)]
    omega

theorem flatLeft_spec (hsize : r * c < 2147483648) (hr : 2 * d + 1 < r) (hc : 2 * d + 1 < c)
    (hroom : n + (r - 2 * d - 1) ≤ r * c) :
    Numbered UInt32.toNat
      (flatLeft (UInt32.ofNat r) (UInt32.ofNat c) (UInt32.ofNat d) (UInt32.ofNat n))
      ((leftLeg (r - 2 * d)).map fun p => offset c (shifted d p)) n := by
  unfold flatLeft leftLeg
  rw [ofNat_succ, ← UInt32.ofNat_mul, ← UInt32.ofNat_mul, ← UInt32.ofNat_mul,
    offset_below (by omega), Nat.mul_comm d c, List.map_map]
  apply @fill_spec _ _ _ n (r - 2 * d - 1) (r * c) _ _ _ (fun k => c * (r - (d + 1) - k))
  · intro k hk
    have hrow : r - (d + 1) - k = r - (d + 1) - (k + 1) + 1 := by omega
    rw [hrow, Nat.mul_succ, UInt32.ofNat_add, UInt32.add_sub_cancel]
  · intro k hk
    rw [decide_eq_true_iff, gt_iff_lt, scaled_lt hsize (by omega) (by omega) (by omega)]
    omega
  · intro k hk
    rw [toNat_index hsize (by omega) (by omega)]
    simp only [Function.comp_apply, offset, shifted]
    congr 2
    omega
  · omega
  · exact hroom
  · right
    rw [decide_eq_false_iff_not, gt_iff_lt, scaled_lt hsize (by omega) (by omega) (by omega)]
    omega

/-! ## 3. The legs, with `ARRAY_SOLUTION` -/

def cellOfWords (s : UInt32 × UInt32) : Cell := (s.1.toNat, s.2.toNat)

theorem cellOfWords_ofNat {i j : Nat} (hi : i < 4294967296) (hj : j < 4294967296) :
    cellOfWords (UInt32.ofNat i, UInt32.ofNat j) = (i, j) :=
  Prod.ext (toNat_ofNat hi) (toNat_ofNat hj)

theorem ofNat_pred {k : Nat} (hk : 1 ≤ k) : UInt32.ofNat k - 1 = UInt32.ofNat (k - 1) :=
  (UInt32.ofNat_sub hk).symm

theorem ofNat_sub_pred {a k : Nat} (hk : k + 1 ≤ a) :
    UInt32.ofNat a - UInt32.ofNat k - 1 = UInt32.ofNat (a - k - 1) := by
  rw [← UInt32.ofNat_sub (by omega), ofNat_pred (by omega)]

theorem arrayTop_spec (hsize : r * c < 2147483648) (hr : 2 * d < r) (hc : 2 * d < c)
    (hroom : n + (c - 2 * d) ≤ r * c) :
    Numbered cellOfWords
      (arrayTop (UInt32.ofNat r) (UInt32.ofNat c) (UInt32.ofNat d) (UInt32.ofNat n))
      ((topLeg (c - 2 * d)).map fun p => shifted d p) n := by
  have hcr : c ≤ r * c := Nat.le_mul_of_pos_left c (by omega)
  unfold arrayTop topLeg
  rw [← UInt32.ofNat_mul, List.map_map]
  apply @fill_spec _ _ _ n (c - 2 * d) (r * c) _ _ _ (fun k => d + k)
  · intro k hk
    exact ofNat_succ (d + k)
  · intro k hk
    rw [← UInt32.ofNat_sub (by omega), decide_eq_true_iff, ofNat_lt_ofNat (by omega) (by omega)]
    omega
  · intro k hk
    exact cellOfWords_ofNat (by omega) (by omega)
  · omega
  · exact hroom
  · right
    rw [← UInt32.ofNat_sub (by omega), decide_eq_false_iff_not, ofNat_lt_ofNat (by omega) (by omega)]
    omega

theorem arrayRight_spec (hsize : r * c < 2147483648) (hr : 2 * d < r) (hc : 2 * d < c)
    (hroom : n + (r - 2 * d - 1) ≤ r * c) :
    Numbered cellOfWords
      (arrayRight (UInt32.ofNat r) (UInt32.ofNat c) (UInt32.ofNat d) (UInt32.ofNat n))
      ((rightLeg (r - 2 * d) (c - 2 * d)).map fun p => shifted d p) n := by
  have hcr : c ≤ r * c := Nat.le_mul_of_pos_left c (by omega)
  have hrc : r ≤ r * c := Nat.le_mul_of_pos_right r (by omega)
  unfold arrayRight rightLeg
  rw [ofNat_succ, ofNat_sub_pred (by omega), ← UInt32.ofNat_mul, List.map_map]
  apply @fill_spec _ _ _ n (r - 2 * d - 1) (r * c) _ _ _ (fun k => d + 1 + k)
  · intro k hk
    exact ofNat_succ (d + 1 + k)
  · intro k hk
    rw [← UInt32.ofNat_sub (by omega), decide_eq_true_iff, ofNat_lt_ofNat (by omega) (by omega)]
    omega
  · intro k hk
    rw [cellOfWords_ofNat (by omega) (by omega)]
    simp only [Function.comp_apply, shifted, Prod.mk.injEq]
    omega
  · omega
  · exact hroom
  · right
    rw [← UInt32.ofNat_sub (by omega), decide_eq_false_iff_not, ofNat_lt_ofNat (by omega) (by omega)]
    omega

theorem arrayBottom_spec (hsize : r * c < 2147483648) (hr : 2 * d + 1 < r) (hc : 2 * d + 1 < c)
    (hroom : n + (c - 2 * d - 2) ≤ r * c) :
    Numbered cellOfWords
      (arrayBottom (UInt32.ofNat r) (UInt32.ofNat c) (UInt32.ofNat d) (UInt32.ofNat n))
      ((bottomLeg (r - 2 * d) (c - 2 * d)).map fun p => shifted d p) n := by
  have hcr : c ≤ r * c := Nat.le_mul_of_pos_left c (by omega)
  have hrc : r ≤ r * c := Nat.le_mul_of_pos_right r (by omega)
  have hcolumn : UInt32.ofNat c - UInt32.ofNat d - 2 = UInt32.ofNat (c - d - 2) := by
    have htwo : (2 : UInt32) = UInt32.ofNat 2 := rfl
    rw [htwo, ← UInt32.ofNat_sub (by omega), ← UInt32.ofNat_sub (by omega)]
  unfold arrayBottom bottomLeg
  rw [hcolumn, ofNat_sub_pred (by omega), ← UInt32.ofNat_mul, List.map_map]
  apply @fill_spec _ _ _ n (c - 2 * d - 2) (r * c) _ _ _ (fun k => c - d - 2 - k)
  · intro k hk
    exact ofNat_pred (by omega)
  · intro k hk
    rw [decide_eq_true_iff, gt_iff_lt, ofNat_lt_ofNat (by omega) (by omega)]
    omega
  · intro k hk
    rw [cellOfWords_ofNat (by omega) (by omega)]
    simp only [Function.comp_apply, shifted, Prod.mk.injEq]
    omega
  · omega
  · exact hroom
  · right
    rw [decide_eq_false_iff_not, gt_iff_lt, ofNat_lt_ofNat (by omega) (by omega)]
    omega

theorem arrayLeft_spec (hsize : r * c < 2147483648) (hr : 2 * d + 1 < r) (hc : 2 * d + 1 < c)
    (hroom : n + (r - 2 * d - 1) ≤ r * c) :
    Numbered cellOfWords
      (arrayLeft (UInt32.ofNat r) (UInt32.ofNat c) (UInt32.ofNat d) (UInt32.ofNat n))
      ((leftLeg (r - 2 * d)).map fun p => shifted d p) n := by
  have hcr : c ≤ r * c := Nat.le_mul_of_pos_left c (by omega)
  have hrc : r ≤ r * c := Nat.le_mul_of_pos_right r (by omega)
  unfold arrayLeft leftLeg
  rw [ofNat_sub_pred (by omega), ← UInt32.ofNat_mul, List.map_map]
  apply @fill_spec _ _ _ n (r - 2 * d - 1) (r * c) _ _ _ (fun k => r - d - 1 - k)
  · intro k hk
    exact ofNat_pred (by omega)
  · intro k hk
    rw [decide_eq_true_iff, gt_iff_lt, ofNat_lt_ofNat (by omega) (by omega)]
    omega
  · intro k hk
    rw [cellOfWords_ofNat (by omega) (by omega)]
    simp only [Function.comp_apply, shifted, Prod.mk.injEq]
    omega
  · omega
  · exact hroom
  · right
    rw [decide_eq_false_iff_not, gt_iff_lt, ofNat_lt_ofNat (by omega) (by omega)]
    omega

/-! ## 4. The rounds -/

/-- The loops of a version with `r` rows and `c` columns store to the legs of the border in the round at
    depth `d`, and to nothing when `counter` is at its bound. -/
structure Loops (view : ι → α) (cellOf : Cell → α) (r c : Nat)
    (top right bottom left : UInt32 → UInt32 → Stores ι × UInt32) : Prop where
  done : ∀ loop ∈ [top, right, bottom, left], ∀ depth,
    loop depth (UInt32.ofNat (r * c)) = ([], UInt32.ofNat (r * c))
  top : ∀ d n, 2 * d < r → 2 * d < c → n + (c - 2 * d) ≤ r * c →
    Numbered view (top (UInt32.ofNat d) (UInt32.ofNat n))
      ((topLeg (c - 2 * d)).map fun p => cellOf (shifted d p)) n
  right : ∀ d n, 2 * d < r → 2 * d < c → n + (r - 2 * d - 1) ≤ r * c →
    Numbered view (right (UInt32.ofNat d) (UInt32.ofNat n))
      ((rightLeg (r - 2 * d) (c - 2 * d)).map fun p => cellOf (shifted d p)) n
  bottom : ∀ d n, 2 * d + 1 < r → 2 * d + 1 < c → n + (c - 2 * d - 2) ≤ r * c →
    Numbered view (bottom (UInt32.ofNat d) (UInt32.ofNat n))
      ((bottomLeg (r - 2 * d) (c - 2 * d)).map fun p => cellOf (shifted d p)) n
  left : ∀ d n, 2 * d + 1 < r → 2 * d + 1 < c → n + (r - 2 * d - 1) ≤ r * c →
    Numbered view (left (UInt32.ofNat d) (UInt32.ofNat n))
      ((leftLeg (r - 2 * d)).map fun p => cellOf (shifted d p)) n

section

variable {cellOf : Cell → α} {top right bottom left : UInt32 → UInt32 → Stores ι × UInt32}

theorem Loops.round_done (h : Loops view cellOf r c top right bottom left) (depth : UInt32) :
    roundOf top right bottom left depth (UInt32.ofNat (r * c)) = ([], UInt32.ofNat (r * c)) := by
  unfold roundOf
  simp only [h.done top (by simp), h.done right (by simp), h.done bottom (by simp),
    h.done left (by simp), List.append_nil]

/-- The way round the border needs no more cells than there are. -/
theorem ring_fits {a b : Nat} (ha : 2 ≤ a) (hb : 2 ≤ b) :
    b + (a - 1) + (b - 2) + (a - 1) ≤ a * b := by
  obtain ⟨a, rfl⟩ := Nat.exists_eq_add_of_le ha
  obtain ⟨b, rfl⟩ := Nat.exists_eq_add_of_le hb
  have hprod : (2 + a) * (2 + b) = 4 + 2 * a + 2 * b + a * b := by
    rw [Nat.add_mul, Nat.mul_add, Nat.mul_add, Nat.mul_comm a 2]
    omega
  have hpos := Nat.zero_le (a * b)
  omega

/-- The first two loops of a round. -/
theorem Loops.round_start (h : Loops view cellOf r c top right bottom left) (hr : 2 * d < r)
    (hc : 2 * d < c) (hroom : n + (c - 2 * d) + (r - 2 * d - 1) ≤ r * c) :
    Numbered view
      ((top (UInt32.ofNat d) (UInt32.ofNat n)).1 ++
        (right (UInt32.ofNat d) (top (UInt32.ofNat d) (UInt32.ofNat n)).2).1,
        (right (UInt32.ofNat d) (top (UInt32.ofNat d) (UInt32.ofNat n)).2).2)
      ((topLeg (c - 2 * d) ++ rightLeg (r - 2 * d) (c - 2 * d)).map fun p => cellOf (shifted d p)) n := by
  have hlen : ((topLeg (c - 2 * d)).map fun p => cellOf (shifted d p)).length = c - 2 * d := by
    simp [topLeg]
  have htop := h.top d n hr hc (by omega)
  rw [List.map_append]
  apply htop.append
  rw [htop.2, hlen]
  exact h.right d _ hr hc hroom

/-- The way back. -/
theorem Loops.round_back (h : Loops view cellOf r c top right bottom left) (hr : 2 * d + 1 < r)
    (hc : 2 * d + 1 < c) (hroom : n + (c - 2 * d - 2) + (r - 2 * d - 1) ≤ r * c) :
    Numbered view
      ((bottom (UInt32.ofNat d) (UInt32.ofNat n)).1 ++
        (left (UInt32.ofNat d) (bottom (UInt32.ofNat d) (UInt32.ofNat n)).2).1,
        (left (UInt32.ofNat d) (bottom (UInt32.ofNat d) (UInt32.ofNat n)).2).2)
      ((bottomLeg (r - 2 * d) (c - 2 * d) ++ leftLeg (r - 2 * d)).map
        fun p => cellOf (shifted d p)) n := by
  have hlen : ((bottomLeg (r - 2 * d) (c - 2 * d)).map fun p => cellOf (shifted d p)).length =
      c - 2 * d - 2 := by
    simp [bottomLeg]
  have hbottom := h.bottom d n hr hc (by omega)
  rw [List.map_append]
  apply hbottom.append
  rw [hbottom.2, hlen]
  exact h.left d _ hr hc hroom

/-- **A round stores to the border of what is left.** -/
theorem Loops.round_border (h : Loops view cellOf r c top right bottom left) (hr : 2 * d < r)
    (hc : 2 * d < c) (hn : n + (r - 2 * d) * (c - 2 * d) = r * c) :
    Numbered view (roundOf top right bottom left (UInt32.ofNat d) (UInt32.ofNat n))
      ((ring (r - 2 * d) (c - 2 * d)).map fun p => cellOf (shifted d p)) n := by
  have hlen : ((topLeg (c - 2 * d) ++ rightLeg (r - 2 * d) (c - 2 * d)).map
      fun p => cellOf (shifted d p)).length = c - 2 * d + (r - 2 * d - 1) := by
    simp [topLeg, rightLeg]
  unfold roundOf ring
  by_cases hone : r - 2 * d = 1 ∨ c - 2 * d = 1
  · -- the two legs are all that is left
    have hall : c - 2 * d + (r - 2 * d - 1) = (r - 2 * d) * (c - 2 * d) := by
      rcases hone with hone | hone
      · rw [hone]
        omega
      · rw [hone]
        omega
    have hstart := h.round_start hr hc (n := n) (by omega)
    have hcounter := hstart.2
    rw [hlen, hall, hn] at hcounter
    dsimp only at hcounter ⊢
    rw [if_pos hone, List.append_nil, hcounter, h.done bottom (by simp), h.done left (by simp),
      List.append_nil, List.append_nil, ← hcounter]
    exact hstart
  · have hfits := ring_fits (a := r - 2 * d) (b := c - 2 * d) (by omega) (by omega)
    have hstart := h.round_start hr hc (n := n) (by omega)
    have hcounter := hstart.2
    rw [hlen] at hcounter
    have hback := h.round_back (n := n + (c - 2 * d + (r - 2 * d - 1))) (d := d) (by omega) (by omega)
      (by omega)
    rw [← hcounter] at hback
    rw [if_neg hone, List.map_append]
    have hround := hstart.append (hlen.symm ▸ hback)
    simp only [List.append_assoc] at hround ⊢
    exact hround

theorem shifted_shifted (d : Nat) (p : Cell) : shifted d (shifted 1 p) = shifted (d + 1) p := by
  simp only [shifted, Prod.mk.injEq]
  omega

/-- The rounds that are left store to the spiral of what is left. -/
theorem Loops.rounds_spec (h : Loops view cellOf r c top right bottom left)
    (hm : d + m = (c + 1) / 2) (hn : n + (r - 2 * d) * (c - 2 * d) = r * c) :
    ((rounds (roundOf top right bottom left) m (UInt32.ofNat d) (UInt32.ofNat n)).map
        fun s => (view s.1, s.2.toNat)) =
      ((spiral (r - 2 * d) (c - 2 * d)).map fun p => cellOf (shifted d p)).zipIdx (n + 1) := by
  induction m generalizing d n with
  | zero =>
    have hnone : c - 2 * d = 0 := by omega
    rw [hnone, spiral_zero_right]
    rfl
  | succ m ih =>
    have hm' : d + 1 + m = (c + 1) / 2 := by omega
    have hinner : r - 2 * (d + 1) = r - 2 * d - 2 ∧ c - 2 * (d + 1) = c - 2 * d - 2 := by omega
    rw [rounds, ofNat_succ, List.map_append]
    by_cases hr : 2 * d < r
    · have hc : 2 * d < c := by omega
      have hring : spiral (r - 2 * d) (c - 2 * d) = ring (r - 2 * d) (c - 2 * d) ++
          (spiral (r - 2 * d - 2) (c - 2 * d - 2)).map (shifted 1) :=
        spiral_eq_ring (by omega) (by omega)
      have hborder := h.round_border hr hc hn
      have hlen := congrArg List.length hring
      rw [length_spiral, List.length_append, List.length_map, length_spiral] at hlen
      have hrest := ih hm' (n := n + (ring (r - 2 * d) (c - 2 * d)).length) (by
        rw [hinner.1, hinner.2, Nat.add_assoc, ← hlen]
        exact hn)
      rw [hborder.1, hborder.2, List.length_map, hrest, hinner.1, hinner.2, hring]
      simp only [List.map_append, List.map_map, Function.comp_def, shifted_shifted,
        List.zipIdx_append, List.length_map, Nat.add_right_comm]
    · have hnone : r - 2 * d = 0 := by omega
      have hn' : n = r * c := by
        rw [hnone, Nat.zero_mul] at hn
        exact hn
      have hrest := ih hm' (n := r * c) (by
        rw [hinner.1, hnone, Nat.zero_sub, Nat.zero_mul]
        exact Nat.add_zero _)
      rw [hn', h.round_done, hrest, hinner.1, hnone]
      simp [spiral]

end

/-- The number of rounds is half the number of columns, rounded up. -/
theorem rounds_needed (columns : UInt32) :
    (columns / 2 + columns % 2).toNat = (columns.toNat + 1) / 2 := by
  have hlt := columns.toNat_lt
  have htwo : (2 : UInt32).toNat = 2 := rfl
  rw [UInt32.toNat_add, UInt32.toNat_div, UInt32.toNat_mod, htwo]
  omega

/-- **A version of `snake_matrix` numbers the cells along the spiral.** -/
theorem Loops.snake {cellOf : Cell → α}
    {top right bottom left : UInt32 → UInt32 → Stores ι × UInt32} {columns : UInt32}
    (h : Loops view cellOf r columns.toNat top right bottom left) :
    ((rounds (roundOf top right bottom left) (columns / 2 + columns % 2).toNat 0 0).map
        fun s => (view s.1, s.2.toNat)) =
      ((spiral r columns.toNat).map cellOf).zipIdx 1 := by
  have hrounds := h.rounds_spec (d := 0) (n := 0) (m := (columns / 2 + columns % 2).toNat)
    (by rw [rounds_needed, Nat.zero_add]) (Nat.zero_add _)
  have hshift : ∀ p : Cell, shifted 0 p = p := by
    intro p
    simp [shifted]
  simp only [Nat.mul_zero, Nat.sub_zero, hshift] at hrounds
  exact hrounds

/-! ## 5. The two versions -/

theorem flat_loops (hsize : r * c < 2147483648) :
    Loops UInt32.toNat (offset c) r c (flatTop (UInt32.ofNat r) (UInt32.ofNat c))
      (flatRight (UInt32.ofNat r) (UInt32.ofNat c)) (flatBottom (UInt32.ofNat r) (UInt32.ofNat c))
      (flatLeft (UInt32.ofNat r) (UInt32.ofNat c)) where
  done := by
    intro loop hloop depth
    rw [UInt32.ofNat_mul]
    simp only [List.mem_cons, List.not_mem_nil, or_false] at hloop
    rcases hloop with rfl | rfl | rfl | rfl <;> exact fill_done ..
  top _ _ hr hc := flatTop_spec hsize hr hc
  right _ _ hr hc := flatRight_spec hsize hr hc
  bottom _ _ hr hc := flatBottom_spec hsize hr hc
  left _ _ hr hc := flatLeft_spec hsize hr hc

theorem array_loops (hsize : r * c < 2147483648) :
    Loops cellOfWords (fun p => p) r c (arrayTop (UInt32.ofNat r) (UInt32.ofNat c))
      (arrayRight (UInt32.ofNat r) (UInt32.ofNat c)) (arrayBottom (UInt32.ofNat r) (UInt32.ofNat c))
      (arrayLeft (UInt32.ofNat r) (UInt32.ofNat c)) where
  done := by
    intro loop hloop depth
    rw [UInt32.ofNat_mul]
    simp only [List.mem_cons, List.not_mem_nil, or_false] at hloop
    rcases hloop with rfl | rfl | rfl | rfl <;> exact fill_done ..
  top _ _ hr hc := arrayTop_spec hsize hr hc
  right _ _ hr hc := arrayRight_spec hsize hr hc
  bottom _ _ hr hc := arrayBottom_spec hsize hr hc
  left _ _ hr hc := arrayLeft_spec hsize hr hc

theorem snakeMatrix_stores {rows columns : UInt32} (hsize : rows.toNat * columns.toNat < 2147483648) :
    ((snakeMatrix rows columns).map fun s => (s.1.toNat, s.2.toNat)) =
      ((spiral rows.toNat columns.toNat).map (offset columns.toNat)).zipIdx 1 := by
  have h := (flat_loops hsize).snake
  rw [UInt32.ofNat_toNat, UInt32.ofNat_toNat] at h
  exact h

theorem snakeMatrixArray_stores {rows columns : UInt32}
    (hsize : rows.toNat * columns.toNat < 2147483648) :
    ((snakeMatrixArray rows columns).map fun s => (cellOfWords s.1, s.2.toNat)) =
      (spiral rows.toNat columns.toNat).zipIdx 1 := by
  have h := (array_loops hsize).snake
  rw [UInt32.ofNat_toNat, UInt32.ofNat_toNat, List.map_id'] at h
  exact h

end Snake
end Labs
