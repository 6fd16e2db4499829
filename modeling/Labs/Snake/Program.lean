import Labs.Lib.CInt
import Mathlib.Logic.Function.Basic

/-!
# The matrix filled as a snake

`snake_matrix` of `LAB_2/task_matrix_as_snake/src/matrix_as_snake.c`, in both versions: with a pointer to
the cells, where a row is an offset, and with `ARRAY_SOLUTION`, where it is a number. An `unsigned int` is
a `UInt32`, and its arithmetic wraps around as in the source.

Every assignment is `mtrx[…] = ++counter`, so a loop is known by the cells it stores to, in order, with
what it stores: `Stores`. All of them have the same form, `fill`, and go on as long as `counter` is less
than `rows * columns`. `contents` is the matrix behind them.

`main` calls it with what `scanf` has read, if that is `accepted`.
-/

namespace Labs
namespace Snake

variable {ι : Type}

abbrev Stores (ι : Type) := List (ι × UInt32)

/-- The matrix behind the stores. -/
def contents [DecidableEq ι] (mtrx : ι → UInt32) (stores : Stores ι) : ι → UInt32 :=
  stores.foldl (fun m s => Function.update m s.1 s.2) mtrx

/-! ## 1. The loops -/

theorem counter_lt {counter total : UInt32} (h : counter < total) :
    total.toNat - (counter + 1).toNat < total.toNat - counter.toNat :=
  Lib.turns_left_lt h

/-- `for (x = …; (counter < total) && guard; x = next) mtrx[cell] = ++counter;`, and `counter` behind
    it. -/
def fill (total : UInt32) (guard : UInt32 → Bool) (next : UInt32 → UInt32) (cell : UInt32 → ι)
    (x counter : UInt32) : Stores ι × UInt32 :=
  if h : counter < total ∧ guard x then
    let r := fill total guard next cell (next x) (counter + 1)
    ((cell x, counter + 1) :: r.1, r.2)
  else ([], counter)
termination_by total.toNat - counter.toNat
decreasing_by exact counter_lt h.1

/-- The four loops of a round. -/
def roundOf (top right bottom left : UInt32 → UInt32 → Stores ι × UInt32) (depth counter : UInt32) :
    Stores ι × UInt32 :=
  let t := top depth counter
  let r := right depth t.2
  let b := bottom depth r.2
  let l := left depth b.2
  (t.1 ++ r.1 ++ b.1 ++ l.1, l.2)

/-- The loop over the rounds, of which `m` are left. -/
def rounds (round : UInt32 → UInt32 → Stores ι × UInt32) : Nat → UInt32 → UInt32 → Stores ι
  | 0, _, _ => []
  | m + 1, depth, counter =>
    let r := round depth counter
    r.1 ++ rounds round m (depth + 1) r.2

/-! ## 2. With a pointer -/

def flatTop (rows columns depth counter : UInt32) : Stores UInt32 × UInt32 :=
  let row := columns * depth
  fill (rows * columns) (fun column => column < columns - depth) (fun column => column + 1)
    (fun column => row + column) depth counter

def flatRight (rows columns depth counter : UInt32) : Stores UInt32 × UInt32 :=
  let column := columns - depth - 1
  fill (rows * columns) (fun row => row < rows * columns - columns * depth) (fun row => row + columns)
    (fun row => row + column) (columns * (depth + 1)) counter

def flatBottom (rows columns depth counter : UInt32) : Stores UInt32 × UInt32 :=
  let row := rows * columns - columns * (depth + 1)
  fill (rows * columns) (fun column => column > depth) (fun column => column - 1)
    (fun column => row + column) (columns - 2 - depth) counter

def flatLeft (rows columns depth counter : UInt32) : Stores UInt32 × UInt32 :=
  let column := depth
  fill (rows * columns) (fun row => row > depth * columns) (fun row => row - columns)
    (fun row => row + column) (rows * columns - columns * (depth + 1)) counter

def flatRound (rows columns : UInt32) : UInt32 → UInt32 → Stores UInt32 × UInt32 :=
  roundOf (flatTop rows columns) (flatRight rows columns) (flatBottom rows columns)
    (flatLeft rows columns)

/-- `snake_matrix`. -/
def snakeMatrix (rows columns : UInt32) : Stores UInt32 :=
  rounds (flatRound rows columns) (columns / 2 + columns % 2).toNat 0 0

/-! ## 3. `ARRAY_SOLUTION` -/

def arrayTop (rows columns depth counter : UInt32) : Stores (UInt32 × UInt32) × UInt32 :=
  let row := depth
  fill (rows * columns) (fun column => column < columns - depth) (fun column => column + 1)
    (fun column => (row, column)) depth counter

def arrayRight (rows columns depth counter : UInt32) : Stores (UInt32 × UInt32) × UInt32 :=
  let column := columns - depth - 1
  fill (rows * columns) (fun row => row < rows - depth) (fun row => row + 1)
    (fun row => (row, column)) (depth + 1) counter

def arrayBottom (rows columns depth counter : UInt32) : Stores (UInt32 × UInt32) × UInt32 :=
  let row := rows - depth - 1
  fill (rows * columns) (fun column => column > depth) (fun column => column - 1)
    (fun column => (row, column)) (columns - depth - 2) counter

def arrayLeft (rows columns depth counter : UInt32) : Stores (UInt32 × UInt32) × UInt32 :=
  let column := depth
  fill (rows * columns) (fun row => row > depth) (fun row => row - 1)
    (fun row => (row, column)) (rows - depth - 1) counter

def arrayRound (rows columns : UInt32) : UInt32 → UInt32 → Stores (UInt32 × UInt32) × UInt32 :=
  roundOf (arrayTop rows columns) (arrayRight rows columns) (arrayBottom rows columns)
    (arrayLeft rows columns)

/-- `snake_matrix` with `ARRAY_SOLUTION`. -/
def snakeMatrixArray (rows columns : UInt32) : Stores (UInt32 × UInt32) :=
  rounds (arrayRound rows columns) (columns / 2 + columns % 2).toNat 0 0

/-! ## 4. `main` -/

def ROWMAX : UInt32 := 100
def COLMAX : UInt32 := 100

/-- The sizes that `main` does not refuse. -/
def accepted (rows columns : UInt32) : Bool :=
  !((columns ≥ COLMAX || rows ≥ ROWMAX) || (columns ≤ 1 || rows ≤ 1))

/-- `arr` has more elements than there are cells. -/
theorem size_of_accepted {rows columns : UInt32} (h : accepted rows columns = true) :
    0 < rows.toNat ∧ 0 < columns.toNat ∧
      rows.toNat * columns.toNat < ROWMAX.toNat * COLMAX.toNat := by
  simp only [accepted, ROWMAX, COLMAX, Bool.not_eq_true', Bool.or_eq_false_iff,
    decide_eq_false_iff_not, UInt32.le_iff_toNat_le, UInt32.toNat_one] at h
  have hundred : (100 : UInt32).toNat = 100 := rfl
  rw [hundred] at h
  obtain ⟨⟨hcolmax, hrowmax⟩, hcol, hrow⟩ := h
  have hlt : rows.toNat * columns.toNat < 100 * 100 :=
    Nat.mul_lt_mul'' (by omega) (by omega)
  exact ⟨by omega, by omega, hlt⟩

end Snake
end Labs
