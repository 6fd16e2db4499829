import Labs.Lib.CInt
import Labs.Lib.Grid
import Labs.Lib.Processes

/-!
# The threaded product

`multiply_func` and the loops of `matrix_start` over the threads, of
`LAB_13/task_matrix/src/matrix_multiplication.c`, over the one structure that all of them share.
There is a thread for each row of the product; the calls succeed.

A place stands before one read or write of the structure, or one call, and carries what the thread
has in its variables. Which factor of a term is read first is left to the compiler, and so to the
world here. The pointers to the rows are set before there are threads, so that an access to a cell is
one step. A counter of a loop stays below an `int` that bounds it, so it is a `Nat`. A read or write
past a matrix is where a thread stops for good, at `fault`.
-/

namespace Labs
namespace MatrixProduct

open Lib

abbrev MAX_NUM : Int := 6

/-- `MATRIX_A`, `MATRIX_B` and `MATRIX_C`. -/
inductive MatrixNum
  | A
  | B
  | C
deriving DecidableEq

/-! ## 1. The dimensions -/

structure Dims where
  rows : MatrixNum → Int
  cols : MatrixNum → Int

/-- What `matrix_start` makes of its four arguments. -/
def dims (rowsA colsA rowsB colsB : Int) : Dims where
  rows
    | .A => rowsA
    | .B => rowsB
    | .C => rowsA
  cols
    | .A => colsA
    | .B => colsB
    | .C => colsB

/-- Neither of the two messages about the dimensions is printed. -/
def Dims.Accepted (d : Dims) : Prop :=
  ¬ (d.rows .A ≤ 0 ∨ d.rows .B ≤ 0 ∨ d.cols .A ≤ 0 ∨ d.cols .B ≤ 0) ∧ ¬ d.cols .A ≠ d.rows .B

instance (d : Dims) : Decidable d.Accepted := inferInstanceAs (Decidable (_ ∧ _))

/-- What is accepted are the dimensions of a product. -/
theorem accepted_iff {rowsA colsA rowsB colsB : Int} :
    (dims rowsA colsA rowsB colsB).Accepted ↔
      ∃ r n c : Nat, (0 < r ∧ 0 < n ∧ 0 < c) ∧
        rowsA = r ∧ colsA = n ∧ rowsB = n ∧ colsB = c := by
  constructor
  · intro h
    obtain ⟨hpos, hsame⟩ := h
    simp only [dims, not_or, not_le, not_not] at hpos hsame
    exact ⟨rowsA.toNat, colsA.toNat, colsB.toNat, by omega, by omega, by omega, by omega, by omega⟩
  · intro h
    obtain ⟨r, n, c, hpos, rfl, rfl, rfl, rfl⟩ := h
    refine ⟨?_, not_not.mpr rfl⟩
    simp only [dims]
    omega

/-! ## 2. The entries -/

/-- The cells of a matrix as they are filled, a row at a time; `start` calls of `rand` have been
    made before. -/
def filled (rand : Nat → Int) (start : Nat) (r c : Nat) : Matrix (Fin r) (Fin c) Int :=
  fun j l => (rand (start + j * c + l)).tmod MAX_NUM

/-- Entries as they are generated. -/
def Generated {r c : Nat} (M : Matrix (Fin r) (Fin c) Int) : Prop :=
  ∀ i j, 0 ≤ M i j ∧ M i j < MAX_NUM

theorem filled_generated {rand : Nat → Int} (h : ∀ k, 0 ≤ rand k) (start r c : Nat) :
    Generated (filled rand start r c) :=
  fun _ _ => ⟨Int.tmod_nonneg _ (h _), Int.tmod_lt_of_pos _ (by decide)⟩

/-! ## 3. `multiply_func` -/

/-- `matrices_data`, the threads that there are and the threads that have returned. -/
structure Shared where
  matrices : MatrixNum → List (List Int)
  dims : Dims
  threadCount : Nat
  returned : Nat → Bool

namespace Shared

variable (m : Shared)

def setC (g : List (List Int)) : Shared := { m with matrices := Function.update m.matrices .C g }

def create (k : Nat) : Shared := { m with threadCount := k }

def finish (idx : Nat) : Shared := { m with returned := Function.update m.returned idx true }

@[simp] theorem setC_product (g : List (List Int)) : (m.setC g).matrices .C = g := by
  simp [setC]

@[simp] theorem finish_returned (idx : Nat) : (m.finish idx).returned idx = true := by
  simp [finish]

end Shared

/-- Which factor of a term is read first. -/
inductive Factor
  | left
  | right

inductive RowPlace
  | start
  | testI (i : Nat)
  | testJ (i j : Nat) (cum : Int)
  | loadTerm (i j : Nat) (cum : Int)
  | loadRight (i j : Nat) (cum a : Int)
  | loadLeft (i j : Nat) (cum b : Int)
  | storeC (i : Nat) (cum : Int)
  | leave
  | returned
  | fault
deriving DecidableEq

/-- On with what a cell holds. -/
def reading (m : Shared) (x : Option Int) (k : Int → RowPlace) :
    Option (RowPlace × Shared × SemOp Empty) :=
  match x with
  | none => some (.fault, m, .skip)
  | some x => some (k x, m, .skip)

/-- `cum += a * b`, and `j++`. -/
def addTerm (i j : Nat) (cum a b : Int) : RowPlace :=
  .testJ i (j + 1) (wrap32 (cum + wrap32 (a * b)))

def multiplyFunc (idx : Nat) :
    RowPlace → Shared → Factor → Option (RowPlace × Shared × SemOp Empty)
  | .start, m, _ => if idx < m.threadCount then some (.testI 0, m, .skip) else none
  | .testI i, m, _ => some (if i < m.dims.cols .C then .testJ i 0 0 else .leave, m, .skip)
  | .testJ i j cum, m, _ =>
    some (if j < m.dims.cols .A then .loadTerm i j cum else .storeC i cum, m, .skip)
  | .loadTerm i j cum, m, .left => reading m (cell (m.matrices .A) idx j) (.loadRight i j cum)
  | .loadTerm i j cum, m, .right => reading m (cell (m.matrices .B) j i) (.loadLeft i j cum)
  | .loadRight i j cum a, m, _ => reading m (cell (m.matrices .B) j i) (addTerm i j cum a)
  | .loadLeft i j cum b, m, _ =>
    reading m (cell (m.matrices .A) idx j) fun a => addTerm i j cum a b
  | .storeC i cum, m, _ =>
    match setCell (m.matrices .C) idx i cum with
    | none => some (.fault, m, .skip)
    | some g => some (.testI (i + 1), m.setC g, .skip)
  | .leave, m, _ => some (.returned, m.finish idx, .skip)
  | .returned, _, _ => none
  | .fault, _, _ => none

/-! ## 4. `matrix_start` -/

inductive MainPlace
  | create (i : Nat)
  | join (i : Nat)
  | display
deriving DecidableEq

def matrixStart : MainPlace → Shared → Factor → Option (MainPlace × Shared × SemOp Empty)
  | .create i, m, _ =>
    if i < m.dims.rows .C then some (.create (i + 1), m.create (i + 1), .skip)
    else some (.join 0, m, .skip)
  | .join i, m, _ =>
    if i < m.threadCount then if m.returned i then some (.join (i + 1), m, .skip) else none
    else some (.display, m, .skip)
  | .display, _, _ => none

/-! ## 5. The system -/

/-- `idx` is what `multiply_func` is given. -/
inductive Thread
  | main
  | row (idx : Nat)
deriving DecidableEq

abbrev Place : Thread → Type
  | .main => MainPlace
  | .row _ => RowPlace

def program : Program Thread Place Shared Empty Factor
  | .main => matrixStart
  | .row idx => multiplyFunc idx

abbrev State : Type := Sys Thread Place Shared Empty

def entryPlace : (t : Thread) → Place t
  | .main => .create 0
  | .row _ => .start

variable {r n c : Nat}

/-- Before the first thread is created: `calloc` has cleared the cells of the product. -/
def init (A : Matrix (Fin r) (Fin n) Int) (B : Matrix (Fin n) (Fin c) Int) : State where
  pc := entryPlace
  mem :=
    { matrices := fun
        | .A => ofMatrix A
        | .B => ofMatrix B
        | .C => ofMatrix (0 : Matrix (Fin r) (Fin c) Int)
      dims := MatrixProduct.dims r n n c
      threadCount := 0
      returned := fun _ => false }
  sem := Empty.elim

def step : State → Thread × Factor → Option State := Sys.step program

end MatrixProduct
end Labs
