import Labs.MatrixProduct.Program

/-!
# What the threads compute

A thread writes the row that it is given and nothing else (`multiplyFunc_writes`), so what it knows
of its own row stays true while the others move. What it knows is the invariant of the two loops: the
cells of the row up to `i` are those of the product, and `cum` is the sum of the first `j` terms
(`AtPlace`). The sums stay below the entries of the product, since no term is negative.

## Why there is no race

The threads share the structure and all three matrices, and there is no lock. There is none needed,
since a thread writes one row of the product and reads the factors, which nobody writes. `Writes`
says so for one thread, and then each other thread's knowledge is about other rows: the stability of
`RowKnows` is by a comparison of indices and by nothing else.

The main thread is a party like the others. It writes the counter of threads while rows are being
computed, and what it knows grows with its loops (`MainKnows`): how many threads there are, then
which of them have returned. When it displays the product all rows are complete, because a returned
thread knows its whole row.

Single reads and writes are steps, and the order of the reads of the two factors is left open, as in
the source (`Factor`). The sums are taken in `int`, so it has to be shown that no intermediate sum
is larger than an entry of the product (`cum` is a sum of the first `j` terms, and no term is
negative).
-/

namespace Labs
namespace MatrixProduct

open Lib

variable {r n c : Nat} {A : Matrix (Fin r) (Fin n) Int} {B : Matrix (Fin n) (Fin c) Int}
  {m m' : Shared} {op : SemOp Empty} {e : Factor} {idx : Nat}

/-! ## 1. What a step writes -/

/-- From `m` to `m'` only the row `idx` of the product, and whether its thread has returned, may
    have changed. -/
structure Writes (idx : Nat) (m m' : Shared) : Prop where
  dims : m'.dims = m.dims
  count : m'.threadCount = m.threadCount
  factors : ∀ k, k ≠ .C → m'.matrices k = m.matrices k
  rows : ∀ k l, k ≠ idx → cell (m'.matrices .C) k l = cell (m.matrices .C) k l
  shape : ∀ r c, Shaped (m.matrices .C) r c → Shaped (m'.matrices .C) r c
  returned : ∀ k, k ≠ idx → m'.returned k = m.returned k
  kept : m.returned idx = true → m'.returned idx = true

theorem Writes.refl (idx : Nat) (m : Shared) : Writes idx m m :=
  ⟨rfl, rfl, fun _ _ => rfl, fun _ _ _ => rfl, fun _ _ h => h, fun _ _ => rfl, id⟩

theorem writes_setC {i : Nat} {x : Int} {g : List (List Int)}
    (h : setCell (m.matrices .C) idx i x = some g) : Writes idx m (m.setC g) := by
  refine ⟨rfl, rfl, fun k hk => Function.update_of_ne hk .., fun k l hk => ?_, fun r c hs => ?_,
    fun _ _ => rfl, id⟩
  · rw [Shared.setC_product]
    exact cell_setCell_of_ne h (.inl hk)
  · rw [Shared.setC_product]
    exact hs.setCell h

theorem writes_finish : Writes idx m (m.finish idx) :=
  ⟨rfl, rfl, fun _ _ => rfl, fun _ _ _ => rfl, fun _ _ h => h,
    fun _ hk => Function.update_of_ne hk .., fun _ => m.finish_returned idx⟩

theorem reading_cases {x : Option Int} {k : Int → RowPlace} {pc : RowPlace}
    (h : reading m x k = some (pc, m', op)) :
    m' = m ∧ op = .skip ∧ ((x = none ∧ pc = .fault) ∨ ∃ y, x = some y ∧ pc = k y) := by
  cases x with
  | none =>
    cases h
    exact ⟨rfl, rfl, .inl ⟨rfl, rfl⟩⟩
  | some y =>
    cases h
    exact ⟨rfl, rfl, .inr ⟨y, rfl, rfl⟩⟩

theorem multiplyFunc_writes {pc pc' : RowPlace}
    (h : multiplyFunc idx pc m e = some (pc', m', op)) : Writes idx m m' ∧ op = .skip := by
  have hreading : ∀ {x k}, reading m x k = some (pc', m', op) → Writes idx m m' ∧ op = .skip := by
    intro x k hx
    obtain ⟨rfl, hop, -⟩ := reading_cases hx
    exact ⟨.refl idx m', hop⟩
  cases pc with
  | start =>
    simp only [multiplyFunc] at h
    split at h <;> cases h
    exact ⟨.refl idx m, rfl⟩
  | testI i | testJ i j cum =>
    cases h
    exact ⟨.refl idx m, rfl⟩
  | loadTerm i j cum =>
    cases e with
    | left => exact hreading h
    | right => exact hreading h
  | loadRight i j cum a => exact hreading h
  | loadLeft i j cum b => exact hreading h
  | storeC i cum =>
    simp only [multiplyFunc] at h
    split at h
    · cases h
      exact ⟨.refl idx m, rfl⟩
    · rename_i g hg
      cases h
      exact ⟨writes_setC hg, rfl⟩
  | leave =>
    cases h
    exact ⟨writes_finish, rfl⟩
  | returned | fault => cases h

/-- What `matrix_start` does to the structure while the threads are there. -/
theorem matrixStart_cases {pc pc' : MainPlace}
    (h : matrixStart pc m e = some (pc', m', op)) : op = .skip ∧
      ((∃ i, pc = .create i ∧ i < m.dims.rows .C ∧ pc' = .create (i + 1) ∧ m' = m.create (i + 1)) ∨
      (∃ i, pc = .create i ∧ ¬ i < m.dims.rows .C ∧ pc' = .join 0 ∧ m' = m) ∨
      (∃ i, pc = .join i ∧ m.returned i = true ∧ pc' = .join (i + 1) ∧ m' = m) ∨
      (∃ i, pc = .join i ∧ m.threadCount ≤ i ∧ pc' = .display ∧ m' = m)) := by
  cases pc with
  | create i =>
    simp only [matrixStart] at h
    split at h <;> rename_i hi <;> cases h
    · exact ⟨rfl, .inl ⟨i, rfl, hi, rfl, rfl⟩⟩
    · exact ⟨rfl, .inr (.inl ⟨i, rfl, hi, rfl, rfl⟩)⟩
  | join i =>
    simp only [matrixStart] at h
    split at h
    · split at h <;> rename_i hret <;> cases h
      exact ⟨rfl, .inr (.inr (.inl ⟨i, rfl, hret, rfl, rfl⟩))⟩
    · rename_i hi
      cases h
      exact ⟨rfl, .inr (.inr (.inr ⟨i, rfl, Nat.not_lt.mp hi, rfl, rfl⟩))⟩
  | display => cases h

/-! ## 2. The invariant -/

/-- What is never written, and the shape of what is. -/
structure Fixed (A : Matrix (Fin r) (Fin n) Int) (B : Matrix (Fin n) (Fin c) Int) (m : Shared) :
    Prop where
  left : m.matrices .A = ofMatrix A
  right : m.matrices .B = ofMatrix B
  shape : Shaped (m.matrices .C) r c
  dims : m.dims = dims r n n c
  count : m.threadCount ≤ r

/-- The first `i` cells of the row are those of the product. -/
def Computed (A : Matrix (Fin r) (Fin n) Int) (B : Matrix (Fin n) (Fin c) Int) (idx i : Nat)
    (m : Shared) : Prop :=
  ∀ k < i, cell (m.matrices .C) idx k = some (entry (A * B) idx k)

/-- The invariant of the loops, by place. -/
def AtPlace (A : Matrix (Fin r) (Fin n) Int) (B : Matrix (Fin n) (Fin c) Int) (idx : Nat) :
    RowPlace → Shared → Prop
  | .start, _ => True
  | .testI i, m => i ≤ c ∧ Computed A B idx i m
  | .testJ i j cum, m => (i < c ∧ j ≤ n ∧ cum = dot A B idx i j) ∧ Computed A B idx i m
  | .loadTerm i j cum, m => (i < c ∧ j < n ∧ cum = dot A B idx i j) ∧ Computed A B idx i m
  | .loadRight i j cum a, m =>
    ((i < c ∧ j < n ∧ cum = dot A B idx i j) ∧ a = entry A idx j) ∧ Computed A B idx i m
  | .loadLeft i j cum b, m =>
    ((i < c ∧ j < n ∧ cum = dot A B idx i j) ∧ b = entry B j i) ∧ Computed A B idx i m
  | .storeC i cum, m => (i < c ∧ cum = dot A B idx i n) ∧ Computed A B idx i m
  | .leave, m => Computed A B idx c m
  | .returned, m => Computed A B idx c m
  | .fault, _ => False

/-- What the thread of the row `idx` knows. -/
structure RowKnows (A : Matrix (Fin r) (Fin n) Int) (B : Matrix (Fin n) (Fin c) Int) (idx : Nat)
    (pc : RowPlace) (m : Shared) : Prop where
  created : pc ≠ .start → idx < m.threadCount
  flag : m.returned idx = true ↔ pc = .returned
  place : AtPlace A B idx pc m

def MainKnows (r : Nat) : MainPlace → Shared → Prop
  | .create i, m => i ≤ r ∧ m.threadCount = i
  | .join i, m => m.threadCount = r ∧ ∀ k < i, m.returned k = true
  | .display, m => m.threadCount = r ∧ ∀ k < r, m.returned k = true

def Knows (A : Matrix (Fin r) (Fin n) Int) (B : Matrix (Fin n) (Fin c) Int) :
    (t : Thread) → Place t → Shared → Prop
  | .main, pc, m => MainKnows r pc m
  | .row idx, pc, m => RowKnows A B idx pc m

/-! ## 3. The steps of the other threads -/

theorem Fixed.writes (h : Fixed A B m) (hw : Writes idx m m') : Fixed A B m' :=
  ⟨(hw.factors .A nofun).trans h.left, (hw.factors .B nofun).trans h.right, hw.shape r c h.shape,
    hw.dims.trans h.dims, hw.count.symm ▸ h.count⟩

theorem Computed.writes {other i : Nat} (h : Computed A B idx i m) (hne : idx ≠ other)
    (hw : Writes other m m') : Computed A B idx i m' :=
  fun k hk => (hw.rows idx k hne).trans (h k hk)

theorem RowKnows.writes {other : Nat} {pc : RowPlace} (h : RowKnows A B idx pc m)
    (hne : idx ≠ other) (hw : Writes other m m') : RowKnows A B idx pc m' := by
  obtain ⟨hcreated, hflag, hplace⟩ := h
  refine ⟨fun hs => hw.count.symm ▸ hcreated hs, (hw.returned idx hne).symm ▸ hflag, ?_⟩
  cases pc with
  | start => exact trivial
  | leave | returned => exact Computed.writes hplace hne hw
  | fault => exact hplace
  | testI i | testJ i j cum | loadTerm i j cum | loadRight i j cum a | loadLeft i j cum b
  | storeC i cum => exact ⟨hplace.1, hplace.2.writes hne hw⟩

/-- One more thread is nothing to those that are there. -/
theorem RowKnows.create {pc : RowPlace} (h : RowKnows A B idx pc m) :
    RowKnows A B idx pc (m.create (m.threadCount + 1)) := by
  obtain ⟨hcreated, hflag, hplace⟩ := h
  refine ⟨fun hs => Nat.lt_succ_of_lt (hcreated hs), hflag, ?_⟩
  cases pc <;> exact hplace

/-! ## 4. The steps of a thread -/

section Own

theorem Fixed.cell_left (h : Fixed A B m) {j : Nat} (hidx : idx < r) (hj : j < n) :
    cell (m.matrices .A) idx j = some (entry A idx j) :=
  h.left ▸ cell_ofMatrix A hidx hj

theorem Fixed.cell_right (h : Fixed A B m) {i j : Nat} (hj : j < n) (hi : i < c) :
    cell (m.matrices .B) j i = some (entry B j i) :=
  h.right ▸ cell_ofMatrix B hj hi

/-- A step within the thread, which keeps the structure as it is. -/
theorem RowKnows.move {pc pc' : RowPlace} (h : RowKnows A B idx pc m) (hstart : pc ≠ .start)
    (hpc : pc ≠ .returned) (hpc' : pc' ≠ .returned) (hplace : AtPlace A B idx pc' m) :
    RowKnows A B idx pc' m :=
  ⟨fun _ => h.created hstart, ⟨fun hr => absurd (h.flag.mp hr) hpc, fun hr => absurd hr hpc'⟩,
    hplace⟩

/-- The cell that is stored is one more of the row. -/
theorem Computed.store {i : Nat} {g : List (List Int)} (h : Computed A B idx i m)
    (hg : setCell (m.matrices .C) idx i (entry (A * B) idx i) = some g) :
    Computed A B idx (i + 1) (m.setC g) := by
  intro k hk
  rw [Shared.setC_product]
  by_cases hki : k = i
  · subst hki
    exact cell_setCell hg
  · rw [cell_setCell_of_ne hg (.inr hki)]
    exact h k (by omega)

variable (hA : Generated A) (hB : Generated B) (hfit : ∀ i k, (A * B) i k ≤ INT_MAX)
include hA hB hfit

/-- A sum of terms of the product is an `int`. -/
theorem dot_inRange {i j : Nat} (hidx : idx < r) (hi : i < c) (hj : j ≤ n) :
    InRange32 (dot A B idx i j) := by
  have hA₀ : ∀ i j, 0 ≤ A i j := fun i j => (hA i j).1
  have hB₀ : ∀ i j, 0 ≤ B i j := fun i j => (hB i j).1
  have hlow : 0 ≤ dot A B idx i j := dot_nonneg hA₀ hB₀ idx i j
  refine ⟨le_trans (by decide) hlow, ?_⟩
  calc dot A B idx i j ≤ dot A B idx i n := dot_mono hA₀ hB₀ hj
    _ = (A * B) ⟨idx, hidx⟩ ⟨i, hi⟩ := (dot_all hidx hi).trans (entry_fin _ ⟨idx, hidx⟩ ⟨i, hi⟩)
    _ ≤ INT_MAX := hfit _ _

theorem addTerm_dot {i j : Nat} (hidx : idx < r) (hi : i < c) (hj : j < n) :
    addTerm i j (dot A B idx i j) (entry A idx j) (entry B j i) =
      .testJ i (j + 1) (dot A B idx i (j + 1)) := by
  have hnow := dot_inRange hA hB hfit hidx hi (Nat.le_of_lt hj)
  have hnext := dot_inRange hA hB hfit hidx hi (Nat.succ_le_of_lt hj)
  have hterm : 0 ≤ entry A idx j * entry B j i :=
    term_nonneg (fun i j => (hA i j).1) (fun i j => (hB i j).1) idx i j
  have hsum : 0 ≤ dot A B idx i j :=
    dot_nonneg (fun i j => (hA i j).1) (fun i j => (hB i j).1) idx i j
  have hfits : InRange32 (entry A idx j * entry B j i) := by
    rw [dot_succ] at hnext
    exact ⟨le_trans (by decide) hterm, by linarith [hnext.2]⟩
  unfold addTerm
  rw [wrap32_of_inRange hfits, ← dot_succ, wrap32_of_inRange hnext]

omit hfit in
/-- No entry of the product is above 25 for each of its terms. -/
theorem fits_of_small (hn : 25 * (n : Int) ≤ INT_MAX) (i : Fin r) (k : Fin c) :
    (A * B) i k ≤ INT_MAX := by
  refine le_trans ?_ hn
  have hterm : ∀ l ∈ Finset.univ, A i l * B l k ≤ 25 := by
    intro l _
    have hleft : A i l ≤ 5 := Int.le_of_lt_add_one (hA i l).2
    have hright : B l k ≤ 5 := Int.le_of_lt_add_one (hB l k).2
    exact mul_le_mul hleft hright (hB l k).1 (by decide)
  calc (A * B) i k = ∑ l, A i l * B l k := Matrix.mul_apply
    _ ≤ Finset.univ.card • (25 : Int) := Finset.sum_le_card_nsmul _ _ _ hterm
    _ = 25 * n := by
      rw [Finset.card_univ, Fintype.card_fin, nsmul_eq_mul, mul_comm]

/-- **The loop invariant**: a step of the thread leads from what it knows to what it knows. -/
theorem multiplyFunc_knows {pc pc' : RowPlace} (hfix : Fixed A B m) (h : RowKnows A B idx pc m)
    (hstep : multiplyFunc idx pc m e = some (pc', m', op)) : RowKnows A B idx pc' m' := by
  have hrow : pc ≠ .start → idx < r := fun hs => lt_of_lt_of_le (h.created hs) hfix.count
  have hplace := h.place
  cases pc with
  | start =>
    simp only [multiplyFunc] at hstep
    split at hstep <;> rename_i hidx <;> cases hstep
    refine ⟨fun _ => hidx, ⟨fun hr => absurd (h.flag.mp hr) nofun, nofun⟩, Nat.zero_le c, ?_⟩
    exact fun k hk => absurd hk (Nat.not_lt_zero k)
  | testI i =>
    obtain ⟨hi, hdone⟩ := hplace
    have hcols : m.dims.cols .C = c := congrArg (fun d => d.cols .C) hfix.dims
    simp only [multiplyFunc, hcols] at hstep
    split at hstep <;> rename_i hic <;> cases hstep
    · have hzero : 0 = dot A B idx i 0 := (dot_zero idx i).symm
      exact h.move nofun nofun nofun ⟨⟨Int.ofNat_lt.mp hic, Nat.zero_le n, hzero⟩, hdone⟩
    · have hic' : i = c := by omega
      subst hic'
      exact h.move nofun nofun nofun hdone
  | testJ i j cum =>
    obtain ⟨⟨hi, hj, hcum⟩, hdone⟩ := hplace
    have hcols : m.dims.cols .A = n := congrArg (fun d => d.cols .A) hfix.dims
    simp only [multiplyFunc, hcols] at hstep
    split at hstep <;> rename_i hjn <;> cases hstep
    · exact h.move nofun nofun nofun ⟨⟨hi, Int.ofNat_lt.mp hjn, hcum⟩, hdone⟩
    · have hjn' : j = n := by omega
      subst hjn'
      exact h.move nofun nofun nofun ⟨⟨hi, hcum⟩, hdone⟩
  | loadTerm i j cum =>
    obtain ⟨hin, hdone⟩ := hplace
    cases e with
    | left =>
      rw [multiplyFunc, hfix.cell_left (hrow nofun) hin.2.1] at hstep
      cases hstep
      exact h.move nofun nofun nofun ⟨⟨hin, rfl⟩, hdone⟩
    | right =>
      rw [multiplyFunc, hfix.cell_right hin.2.1 hin.1] at hstep
      cases hstep
      exact h.move nofun nofun nofun ⟨⟨hin, rfl⟩, hdone⟩
  | loadRight i j cum a =>
    obtain ⟨⟨⟨hi, hj, rfl⟩, rfl⟩, hdone⟩ := hplace
    rw [multiplyFunc, hfix.cell_right hj hi, reading,
      addTerm_dot hA hB hfit (hrow nofun) hi hj] at hstep
    cases hstep
    exact h.move nofun nofun nofun ⟨⟨hi, hj, rfl⟩, hdone⟩
  | loadLeft i j cum b =>
    obtain ⟨⟨⟨hi, hj, rfl⟩, rfl⟩, hdone⟩ := hplace
    rw [multiplyFunc, hfix.cell_left (hrow nofun) hj, reading,
      addTerm_dot hA hB hfit (hrow nofun) hi hj] at hstep
    cases hstep
    exact h.move nofun nofun nofun ⟨⟨hi, hj, rfl⟩, hdone⟩
  | storeC i cum =>
    obtain ⟨⟨hi, rfl⟩, hdone⟩ := hplace
    obtain ⟨g, hg⟩ := setCell_isSome hfix.shape (hrow nofun) hi (dot A B idx i n)
    simp only [multiplyFunc, hg] at hstep
    cases hstep
    rw [dot_all (hrow nofun) hi] at hg
    refine ⟨fun _ => h.created nofun, ⟨fun hr => absurd (h.flag.mp hr) nofun, nofun⟩, hi, ?_⟩
    exact hdone.store hg
  | leave =>
    cases hstep
    refine ⟨fun _ => h.created nofun, ⟨fun _ => rfl, fun _ => ?_⟩, hplace⟩
    exact m.finish_returned idx
  | returned | fault => cases hstep

end Own

theorem MainKnows.writes {pc : MainPlace} (h : MainKnows r pc m) (hw : Writes idx m m') :
    MainKnows r pc m' := by
  have hkept : ∀ k, m.returned k = true → m'.returned k = true := by
    intro k hk
    by_cases hki : k = idx
    · subst hki
      exact hw.kept hk
    · exact (hw.returned k hki).trans hk
  cases pc with
  | create i => exact ⟨h.1, hw.count.trans h.2⟩
  | join i | display => exact ⟨hw.count.trans h.1, fun k hk => hkept k (h.2 k hk)⟩

theorem matrixStart_knows {pc pc' : MainPlace} (hfix : Fixed A B m) (h : MainKnows r pc m)
    (hstep : matrixStart pc m e = some (pc', m', op)) :
    Fixed A B m' ∧ MainKnows r pc' m' ∧ (m' = m ∨ m' = m.create (m.threadCount + 1)) := by
  have hrows : m.dims.rows .C = r := congrArg (fun d => d.rows .C) hfix.dims
  obtain ⟨-, hcreate | hcreated | hjoin | hjoined⟩ := matrixStart_cases hstep
  · obtain ⟨i, rfl, hi, rfl, rfl⟩ := hcreate
    obtain ⟨-, hcount⟩ := h
    have hir : i + 1 ≤ r := by omega
    subst hcount
    exact ⟨⟨hfix.left, hfix.right, hfix.shape, hfix.dims, hir⟩, ⟨hir, rfl⟩, .inr rfl⟩
  · obtain ⟨i, rfl, hi, rfl, rfl⟩ := hcreated
    obtain ⟨hir, hcount⟩ := h
    have hall : m'.threadCount = r := by omega
    exact ⟨hfix, ⟨hall, fun k hk => absurd hk (Nat.not_lt_zero k)⟩, .inl rfl⟩
  · obtain ⟨i, rfl, hret, rfl, rfl⟩ := hjoin
    refine ⟨hfix, ⟨h.1, fun k hk => ?_⟩, .inl rfl⟩
    rcases Nat.lt_succ_iff_lt_or_eq.mp hk with hlt | rfl
    · exact h.2 k hlt
    · exact hret
  · obtain ⟨i, rfl, hi, rfl, rfl⟩ := hjoined
    exact ⟨hfix, ⟨h.1, fun k hk => h.2 k (lt_of_lt_of_le hk (h.1 ▸ hi))⟩, .inl rfl⟩

/-! ## 5. Runs -/

/-- There are no semaphores. -/
def noneHeld (t : Thread) (_ : Place t) : Set Empty := ∅

theorem program_disciplined : Disciplined program noneHeld := by
  intro t pc m e pc' m' op h
  have hskip : op = .skip := by
    cases t with
    | main => exact (matrixStart_cases h).1
    | row idx => exact (multiplyFunc_writes h).2
  subst hskip
  exact rfl

/-- A thread that is there and has not come to its end can move. -/
theorem multiplyFunc_isSome (pc : RowPlace) (m : Shared) (e : Factor)
    (hidx : idx < m.threadCount) (hret : pc ≠ .returned) (hfault : pc ≠ .fault) :
    ∃ next, multiplyFunc idx pc m e = some next := by
  have hreading : ∀ x k, ∃ next, reading m x k = some next := by
    intro x k
    cases x with
    | none => exact ⟨_, rfl⟩
    | some y => exact ⟨_, rfl⟩
  cases pc with
  | start => exact ⟨_, if_pos hidx⟩
  | testI i | testJ i j cum | leave => exact ⟨_, rfl⟩
  | loadTerm i j cum =>
    cases e with
    | left => exact hreading _ _
    | right => exact hreading _ _
  | loadRight i j cum a => exact hreading _ _
  | loadLeft i j cum b => exact hreading _ _
  | storeC i cum =>
    simp only [multiplyFunc]
    split
    · exact ⟨_, rfl⟩
    · exact ⟨_, rfl⟩
  | returned => exact absurd rfl hret
  | fault => exact absurd rfl hfault

section Runs

variable {s s' : State} (hA : Generated A) (hB : Generated B)
  (hfit : ∀ i k, (A * B) i k ≤ INT_MAX)
include hA hB hfit

theorem sound_step {t : Thread} (h : Sound noneHeld (Fixed A B) (Knows A B) s)
    (hstep : step s (t, e) = some s') : Sound noneHeld (Fixed A B) (Knows A B) s' := by
  have hknows := h.knows t
  refine Sound.step h program_disciplined (fun pc m op hm => ?_) (fun q pc m op hq hm _ hother => ?_)
    hstep
  · cases t with
    | main =>
      obtain ⟨hfix, hmain, -⟩ := matrixStart_knows h.mem hknows hm
      exact ⟨hfix, hmain⟩
    | row idx =>
      exact ⟨h.mem.writes (multiplyFunc_writes hm).1,
        multiplyFunc_knows hA hB hfit h.mem hknows hm⟩
  · cases t with
    | main =>
      obtain ⟨-, -, rfl | rfl⟩ := matrixStart_knows h.mem hknows hm
      · exact hother
      · cases q with
        | main => exact absurd rfl hq
        | row other => exact RowKnows.create hother
    | row idx =>
      have hw := (multiplyFunc_writes hm).1
      cases q with
      | main => exact MainKnows.writes hother hw
      | row other => exact RowKnows.writes hother (fun e => hq (congrArg Thread.row e)) hw

omit hA hB hfit in
theorem sound_init : Sound noneHeld (Fixed A B) (Knows A B) (init A B) where
  locks := Locks.initial (fun _ => rfl) nofun
  mem := ⟨rfl, rfl, shaped_ofMatrix 0, rfl, Nat.zero_le r⟩
  knows t := by
    cases t with
    | main => exact ⟨Nat.zero_le r, rfl⟩
    | row idx => exact ⟨fun h => absurd rfl h, ⟨nofun, nofun⟩, trivial⟩

theorem sound_of_reaches (h : Reaches step (fun _ _ => True) (init A B) s) :
    Sound noneHeld (Fixed A B) (Knows A B) s :=
  h.invariant sound_init fun _ _ _ hs _ hstep => sound_step hA hB hfit hs hstep

/-- No thread reads or writes past a matrix. -/
theorem no_fault (h : Reaches step (fun _ _ => True) (init A B) s) (idx : Nat) :
    s.pc (.row idx) ≠ .fault := by
  intro hfault
  have hknows : RowKnows A B idx (s.pc (.row idx)) s.mem :=
    (sound_of_reaches hA hB hfit h).knows (.row idx)
  rw [hfault] at hknows
  exact hknows.place

/-- Until `matrix_start` is behind its joins, some thread can move. -/
theorem progress (h : Reaches step (fun _ _ => True) (init A B) s) (e : Factor)
    (hmain : s.pc .main ≠ .display) : ∃ t, (step s (t, e)).isSome := by
  have hmoves : ∀ t next, program t (s.pc t) s.mem e = some next → (step s (t, e)).isSome :=
    fun t next hnext => Sys.step_isSome hnext fun x => x.elim
  cases hpc : s.pc .main with
  | create i =>
    by_cases hi : (i : Int) < s.mem.dims.rows .C
    · exact ⟨.main, hmoves .main _ ((congrArg (matrixStart · s.mem e) hpc).trans (if_pos hi))⟩
    · exact ⟨.main, hmoves .main _ ((congrArg (matrixStart · s.mem e) hpc).trans (if_neg hi))⟩
  | join i =>
    by_cases hi : i < s.mem.threadCount
    · by_cases hret : s.mem.returned i = true
      · exact ⟨.main, hmoves .main _ ((congrArg (matrixStart · s.mem e) hpc).trans
          ((if_pos hi).trans (if_pos hret)))⟩
      · have hknows : RowKnows A B i (s.pc (.row i)) s.mem :=
          (sound_of_reaches hA hB hfit h).knows (.row i)
        obtain ⟨next, hnext⟩ := multiplyFunc_isSome (s.pc (.row i)) s.mem e hi
          (fun hr => hret (hknows.flag.mpr hr)) (no_fault hA hB hfit h i)
        exact ⟨.row i, hmoves (.row i) next hnext⟩
    · exact ⟨.main, hmoves .main _ ((congrArg (matrixStart · s.mem e) hpc).trans (if_neg hi))⟩
  | display => exact absurd hpc hmain

/-- Behind the joins all the threads have returned. -/
theorem all_returned_of_display (h : Reaches step (fun _ _ => True) (init A B) s)
    (hmain : s.pc .main = .display) : ∀ idx < r, s.pc (.row idx) = .returned := by
  intro idx hidx
  have hsound := sound_of_reaches hA hB hfit h
  have hknows : MainKnows r (s.pc .main) s.mem := hsound.knows .main
  rw [hmain] at hknows
  have hrow : RowKnows A B idx (s.pc (.row idx)) s.mem := hsound.knows (.row idx)
  exact hrow.flag.mp (hknows.2 idx hidx)

end Runs

/-- **Whatever the order of the steps, the threads leave the product**, and the factors as they
    were. -/
theorem product_of_all_returned {r n c : Nat} (A : Matrix (Fin r) (Fin n) Int)
    (B : Matrix (Fin n) (Fin c) Int) (hA : Generated A) (hB : Generated B)
    (hfit : ∀ i k, (A * B) i k ≤ INT_MAX) (s : State)
    (h : Reaches step (fun _ _ => True) (init A B) s)
    (hall : ∀ idx < r, s.pc (.row idx) = .returned) :
    s.mem.matrices .C = ofMatrix (A * B) ∧ s.mem.matrices .A = ofMatrix A ∧
      s.mem.matrices .B = ofMatrix B := by
  have hsound := sound_of_reaches hA hB hfit h
  refine ⟨eq_ofMatrix hsound.mem.shape fun i hi j hj => ?_, hsound.mem.left, hsound.mem.right⟩
  have hrow : RowKnows A B i (s.pc (.row i)) s.mem := hsound.knows (.row i)
  rw [hall i hi] at hrow
  exact hrow.place j hj

/-- A column of two. -/
def column : Matrix (Fin 2) (Fin 1) Int := fun i _ => 2 + i

def four : Matrix (Fin 1) (Fin 1) Int := fun _ _ => 4

/-- A schedule of their product, in which the second thread reads the right factor first. -/
def twoRows : List (Thread × Factor) :=
  List.replicate 2 (.main, .left) ++ [(.row 1, .right), (.row 0, .left), (.row 1, .right)] ++
    List.replicate 5 (.row 0, .left) ++ List.replicate 7 (.row 1, .right) ++
    List.replicate 3 (.row 0, .left)

theorem product_of_twoRows :
    ∃ s : State, run step twoRows (init column four) = some s ∧
      (∀ idx < 2, s.pc (.row idx) = .returned) ∧ s.mem.matrices .C = [[8], [12]] := by
  have hrun : ∃ s : State, run step twoRows (init column four) = some s ∧
      s.pc (.row 0) = .returned ∧ s.pc (.row 1) = .returned := ⟨_, rfl, rfl, rfl⟩
  obtain ⟨s, hs, hfirst, hsecond⟩ := hrun
  have hall : ∀ idx < 2, s.pc (.row idx) = .returned := by
    intro idx hidx
    rcases Nat.lt_succ_iff_lt_or_eq.mp hidx with hlt | rfl
    · exact Nat.lt_one_iff.mp hlt ▸ hfirst
    · exact hsecond
  have hreach : Reaches step (fun _ _ => True) (init column four) s :=
    reaches_of_run (fun _ _ _ => trivial) .start hs
  have hcolumn : Generated column :=
    Fin.forall_fin_two.mpr
      ⟨Fin.forall_fin_one.mpr (by decide), Fin.forall_fin_one.mpr (by decide)⟩
  have hfour : Generated four := Fin.forall_fin_one.mpr (Fin.forall_fin_one.mpr (by decide))
  have hfit : ∀ i k, (column * four) i k ≤ INT_MAX :=
    Fin.forall_fin_two.mpr
      ⟨Fin.forall_fin_one.mpr (by decide), Fin.forall_fin_one.mpr (by decide)⟩
  have hproduct := product_of_all_returned column four hcolumn hfour hfit s hreach hall
  exact ⟨s, hs, hall, hproduct.1.trans (by decide)⟩

end MatrixProduct
end Labs
