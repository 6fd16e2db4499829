import Labs.MatrixProduct.Program
import Mathlib.Data.List.Perm.Basic

/-!
# The way out of `matrix_start`

`matrix_start` of `LAB_13/task_matrix/src/matrix_multiplication.c` with calls that may fail. What it has
when it comes to `err` is `held`; the label frees just that, and joins the threads that are counted
(`cleanUp_eq`). The joins assign to the status that the failure has set.

Blocks and threads are numbered in the order in which they come to be. What `multiply_func` does is
in `Product`, and the messages and what is displayed are left out.

## Blocks by number

A call of `calloc` is known by how many blocks there are already, and so is the block it returns.
This makes *freed once and nothing else* an equation between lists: what is freed is a permutation
of the numbers below `allocated` (`CleanedUp`). A double free would be a number that occurs twice, a
leak one that is missing, and a block that was never there a number above.

`Kept` is the invariant up to the label: what the variables point to is every block there is, each
once. It is kept by each of the three ways to assign a pointer (`Kept.setAlloc`, `Kept.setNone`,
`Kept.setThreads`), so the loops only have to say which of them they are made of.

When a call fails is counted as well (`Grows`): a sequence of allocations succeeds exactly if each
of its calls does, in the order of the numbers. From this `AllocFails` and `CreateFails` are
conditions on the answers alone, and the result says when a failure is reported without mentioning
how far the program has come.
-/

namespace Labs
namespace MatrixProduct
namespace Errors

abbrev EXIT_FAILURE : Int := 1

/-! ## 1. `matrix_start` -/

/-- What the calls answer: whether there is memory for a block behind so many others, and the status
    of the calls for each thread. -/
structure Answers where
  calloc : Nat → Bool
  create : Nat → Int
  join : Nat → Int

/-- A matrix: the block of the pointers to its rows, and the pointers. -/
structure Rows where
  block : Nat
  ptrs : List (Option Nat)

def Rows.set (rows : Rows) (j : Nat) (p : Option Nat) : Rows :=
  ⟨rows.block, rows.ptrs.set j p⟩

/-- The variables, with the calls that were made. -/
structure Run where
  allocated : Nat
  freed : List Nat
  matrices : MatrixNum → Option Rows
  threads : Option Nat
  threadCount : Nat
  created : Nat
  joined : List Nat

namespace Run

variable (s : Run)

/-- The next block. -/
def alloc : Run := { s with allocated := s.allocated + 1 }

def free (p : Option Nat) : Run := { s with freed := s.freed ++ p.toList }

def setMatrix (i : MatrixNum) (x : Option Rows) : Run :=
  { s with matrices := Function.update s.matrices i x }

theorem setMatrix_self (i : MatrixNum) (x : Option Rows) : (s.setMatrix i x).matrices i = x := by
  simp [setMatrix]

theorem setMatrix_of_ne {i k : MatrixNum} (h : k ≠ i) (x : Option Rows) :
    (s.setMatrix i x).matrices k = s.matrices k := by
  simp [setMatrix, h]

/-- `matrices_data.matrices[i][j] = p`. -/
def setRow (i : MatrixNum) (j : Nat) (p : Option Nat) : Run :=
  s.setMatrix i ((s.matrices i).map (Rows.set · j p))

def createThread : Run :=
  { s with threadCount := s.threadCount + 1, created := s.created + 1 }

def joinThread (i : Nat) : Run := { s with joined := s.joined ++ [i] }

end Run

def start : Run := ⟨0, [], fun _ => none, none, 0, 0, []⟩

/-- The rows from `j` on, of which there are `m`; whether all of them are there. -/
def allocRows (a : Answers) (i : MatrixNum) : Nat → Nat → Run → Run × Bool
  | 0, _, s => (s, true)
  | m + 1, j, s =>
    if a.calloc s.allocated then
      allocRows a i m (j + 1) (s.alloc.setRow i j (some s.allocated))
    else (s.setRow i j none, false)

def allocMatrix (a : Answers) (d : Dims) (i : MatrixNum) (s : Run) : Run × Bool :=
  if a.calloc s.allocated then
    allocRows a i (d.rows i).toNat 0
      (s.alloc.setMatrix i (some ⟨s.allocated, List.replicate (d.rows i).toNat none⟩))
  else (s.setMatrix i none, false)

def allocMatrices (a : Answers) (d : Dims) : List MatrixNum → Run → Run × Bool
  | [], s => (s, true)
  | i :: is, s =>
    if (allocMatrix a d i s).2 then allocMatrices a d is (allocMatrix a d i s).1
    else allocMatrix a d i s

/-- The threads from `i` on, of which there are `m`. -/
def createThreads (a : Answers) : Nat → Nat → Run → Run × Bool
  | 0, _, s => (s, true)
  | m + 1, i, s =>
    if a.create i ≠ 0 then (s, false) else createThreads a m (i + 1) s.createThread

/-- The loop of `pthread_join`, with `ret` as it was. -/
def joinThreads (a : Answers) : Nat → Nat → Run → Int → Run × Int
  | 0, _, s, ret => (s, ret)
  | m + 1, i, s, _ => joinThreads a m (i + 1) (s.joinThread i) (a.join i)

def freeRows (ptrs : List (Option Nat)) : Nat → Nat → Run → Run
  | 0, _, s => s
  | m + 1, j, s => freeRows ptrs m (j + 1) (s.free (ptrs.getD j none))

def freeMatrix (d : Dims) (s : Run) (i : MatrixNum) : Run :=
  match s.matrices i with
  | none => s
  | some rows => (freeRows rows.ptrs (d.rows i).toNat 0 s).free (some rows.block)

/-- From `err` on. -/
def cleanUp (a : Answers) (d : Dims) (ret : Int) (s : Run) : Run × Int :=
  let (s, ret) := joinThreads a s.threadCount 0 s ret
  ([.A, .B, .C].foldl (freeMatrix d) (s.free s.threads), ret)

/-- Up to the joins; whether it gets there. -/
def setUp (a : Answers) (d : Dims) : Run × Bool :=
  let (s, ok) := allocMatrices a d [.A, .B, .C] start
  if ok then
    if a.calloc s.allocated then
      createThreads a (d.rows .C).toNat 0 { s.alloc with threads := some s.allocated }
    else (s, false)
  else (s, false)

def matrixStart (a : Answers) (d : Dims) : Run × Int :=
  if d.Accepted then
    let (s, ok) := setUp a d
    if ok then
      let (s, ret) := joinThreads a s.threadCount 0 s 0
      cleanUp a d ret { s with threadCount := 0 }
    else cleanUp a d EXIT_FAILURE s
  else cleanUp a d EXIT_FAILURE start

/-! ## 2. The label -/

variable {a : Answers} {d : Dims} {s : Run}

def blocksOf : Option Rows → List Nat
  | none => []
  | some rows => rows.ptrs.filterMap id ++ [rows.block]

/-- The blocks that the variables point to, in the order in which they are freed. -/
def held (s : Run) : List Nat :=
  s.threads.toList ++ [.A, .B, .C].flatMap fun i => blocksOf (s.matrices i)

theorem joinThreads_eq (m i : Nat) (s : Run) (ret : Int) :
    joinThreads a m i s ret =
      ({ s with joined := s.joined ++ List.range' i m },
        if m = 0 then ret else a.join (i + m - 1)) := by
  induction m generalizing i s ret with
  | zero => simp [joinThreads]
  | succ m ih =>
    have hlast : i + (m + 1) - 1 = i + m := rfl
    rw [joinThreads, ih, if_neg (Nat.succ_ne_zero m), hlast]
    refine Prod.ext ?_ ?_
    · simp [Run.joinThread, List.range'_succ]
    · show (if m = 0 then a.join i else a.join (i + 1 + m - 1)) = a.join (i + m)
      split
      · rename_i hm
        rw [hm, Nat.add_zero]
      · congr 1
        omega

theorem freeRows_eq (ptrs : List (Option Nat)) (m j : Nat) (s : Run) (h : j + m = ptrs.length) :
    freeRows ptrs m j s = { s with freed := s.freed ++ (ptrs.drop j).filterMap id } := by
  induction m generalizing j s with
  | zero =>
    have hnone : ptrs.drop j = [] := List.drop_eq_nil_of_le (by omega)
    simp [freeRows, hnone]
  | succ m ih =>
    have hj : j < ptrs.length := by omega
    rw [freeRows, ih (j + 1) _ (by omega), List.drop_eq_getElem_cons hj,
      List.getD_eq_getElem?_getD, List.getElem?_eq_getElem hj]
    cases hptr : ptrs[j] <;> simp [Run.free]

/-- Every matrix that is there has a pointer for each of its rows. -/
def Sized (d : Dims) (s : Run) : Prop :=
  ∀ i rows, s.matrices i = some rows → rows.ptrs.length = (d.rows i).toNat

theorem freeMatrix_eq (h : Sized d s) (i : MatrixNum) :
    freeMatrix d s i = { s with freed := s.freed ++ blocksOf (s.matrices i) } := by
  unfold freeMatrix
  cases hrows : s.matrices i with
  | none => simp [blocksOf]
  | some rows =>
    have hlen : 0 + (d.rows i).toNat = rows.ptrs.length := by rw [Nat.zero_add, h i rows hrows]
    simp only [freeRows_eq rows.ptrs _ 0 s hlen, List.drop_zero, Run.free, blocksOf,
      Option.toList_some, List.append_assoc]

theorem freeMatrices_eq (h : Sized d s) (is : List MatrixNum) :
    is.foldl (freeMatrix d) s =
      { s with freed := s.freed ++ is.flatMap fun i => blocksOf (s.matrices i) } := by
  induction is generalizing s with
  | nil => simp
  | cons i is ih =>
    rw [List.foldl_cons, freeMatrix_eq h, ih (by exact h), List.flatMap_cons, List.append_assoc]

/-- **The label frees what is held, and joins the threads that are counted.** -/
theorem cleanUp_eq (h : Sized d s) (ret : Int) :
    cleanUp a d ret s =
      ({ s with joined := s.joined ++ List.range s.threadCount, freed := s.freed ++ held s },
        if s.threadCount = 0 then ret else a.join (s.threadCount - 1)) := by
  simp only [cleanUp, joinThreads_eq, Nat.zero_add, ← List.range_eq_range']
  rw [freeMatrices_eq (by exact h)]
  simp only [held, Run.free, List.append_assoc]

/-! ## 3. What is held -/

/-- A pointer that was NULL. -/
theorem filterMap_set {ptrs : List (Option Nat)} {j : Nat} (h : ptrs[j]? = some none)
    (p : Option Nat) :
    ((ptrs.set j p).filterMap id).Perm (p.toList ++ ptrs.filterMap id) := by
  induction ptrs generalizing j with
  | nil => cases h
  | cons x ptrs ih =>
    cases j with
    | zero =>
      cases (Option.some.inj h : x = none)
      cases p <;> simp
    | succ j =>
      have hrest := ih (j := j) h
      cases x with
      | none => simpa using hrest
      | some b =>
        have hcons := hrest.cons b
        simpa using hcons.trans List.perm_middle.symm

theorem blocksOf_set {rows : Rows} {j : Nat} (h : rows.ptrs[j]? = some none) (p : Option Nat) :
    (blocksOf (some (rows.set j p))).Perm (p.toList ++ blocksOf (some rows)) := by
  have hset := (filterMap_set h p).append_right [rows.block]
  rwa [List.append_assoc] at hset

theorem held_setMatrix (bs : List Nat) {i : MatrixNum} {x : Option Rows}
    (h : (blocksOf x).Perm (bs ++ blocksOf (s.matrices i))) :
    (held (s.setMatrix i x)).Perm (bs ++ held s) := by
  rw [List.perm_iff_count] at h ⊢
  intro b
  have hb := h b
  cases i <;> simp [held, Run.setMatrix, List.count_append] at hb ⊢ <;> omega

/-- Before `err`: every block is held, and none is freed. -/
structure Kept (d : Dims) (s : Run) : Prop where
  sized : Sized d s
  held : (held s).Perm (List.range s.allocated)
  freed : s.freed = []
  joined : s.joined = []
  count : s.threadCount = s.created

theorem start_kept (d : Dims) : Kept d start :=
  ⟨nofun, .refl [], rfl, rfl, rfl⟩

theorem sized_setMatrix {i : MatrixNum} {x : Option Rows} (h : Sized d s)
    (hx : ∀ rows, x = some rows → rows.ptrs.length = (d.rows i).toNat) :
    Sized d (s.setMatrix i x) := by
  intro k rows hrows
  by_cases hk : k = i
  · subst hk
    exact hx rows ((s.setMatrix_self k x).symm.trans hrows)
  · exact h k rows ((s.setMatrix_of_ne hk x).symm.trans hrows)

/-- The next block is held. -/
theorem range_alloc {bs : List Nat} (h : bs.Perm (List.range s.allocated)) :
    (s.allocated :: bs).Perm (List.range s.alloc.allocated) := by
  have hrange : List.range s.alloc.allocated = List.range s.allocated ++ [s.allocated] :=
    List.range_succ
  rw [hrange]
  exact (h.cons s.allocated).trans (List.perm_append_singleton s.allocated _).symm

theorem Kept.setAlloc (h : Kept d s) {i : MatrixNum} {x : Option Rows}
    (hx : (blocksOf x).Perm (s.allocated :: blocksOf (s.matrices i)))
    (hlen : ∀ rows, x = some rows → rows.ptrs.length = (d.rows i).toNat) :
    Kept d (s.alloc.setMatrix i x) :=
  ⟨sized_setMatrix h.sized hlen, (held_setMatrix [s.allocated] hx).trans
    (range_alloc h.held), h.freed, h.joined, h.count⟩

theorem Kept.setNone (h : Kept d s) {i : MatrixNum} {x : Option Rows}
    (hx : (blocksOf x).Perm (blocksOf (s.matrices i)))
    (hlen : ∀ rows, x = some rows → rows.ptrs.length = (d.rows i).toNat) :
    Kept d (s.setMatrix i x) :=
  ⟨sized_setMatrix h.sized hlen, (held_setMatrix [] hx).trans h.held, h.freed, h.joined,
    h.count⟩

theorem Kept.setThreads (h : Kept d s) (hnone : s.threads = none) :
    Kept d { s.alloc with threads := some s.allocated } := by
  refine ⟨h.sized, .trans (.of_eq ?_) (range_alloc h.held), h.freed, h.joined, h.count⟩
  simp [Errors.held, hnone, Run.alloc]

/-! ## 4. The calls -/

/-- From `s`, with `m` calls of `calloc` of which the first one that fails is the last. -/
structure Grows (a : Answers) (m : Nat) (s : Run) (r : Run × Bool) : Prop where
  ok : r.2 = true ↔ ∀ n, s.allocated ≤ n → n < s.allocated + m → a.calloc n = true
  allocated : r.2 = true → r.1.allocated = s.allocated + m
  created : r.1.created = s.created
  threads : r.1.threads = s.threads

namespace Grows

variable {m m' : Nat} {s₁ : Run} {r : Run × Bool}

theorem none (a : Answers) (s : Run) : Grows a 0 s (s, true) :=
  ⟨⟨fun _ _ hlo hhi => absurd hhi (Nat.not_lt.mpr hlo), fun _ => rfl⟩, fun _ => rfl, rfl, rfl⟩

theorem fail (h : a.calloc s.allocated = false) (hcreated : s₁.created = s.created)
    (hthreads : s₁.threads = s.threads) : Grows a (m + 1) s (s₁, false) := by
  refine ⟨⟨nofun, fun hall => ?_⟩, nofun, hcreated, hthreads⟩
  have htrue := hall s.allocated le_rfl (by omega)
  exact absurd (h.symm.trans htrue) (by decide)

/-- A block, and the other calls. -/
theorem cons (h : a.calloc s.allocated = true) (hr : Grows a m s₁ r)
    (hnext : s₁.allocated = s.allocated + 1) (hcreated : s₁.created = s.created)
    (hthreads : s₁.threads = s.threads) : Grows a (m + 1) s r := by
  refine ⟨hr.ok.trans ⟨fun hall n hlo hhi => ?_, fun hall n hlo hhi => ?_⟩, fun hok => ?_,
    hr.created.trans hcreated, hr.threads.trans hthreads⟩
  · rcases Nat.eq_or_lt_of_le hlo with rfl | hlt
    · exact h
    · exact hall n (by omega) (by omega)
  · exact hall n (by omega) (by omega)
  · rw [hr.allocated hok, hnext]
    omega

theorem append (h : Grows a m s (s₁, true)) (hr : Grows a m' s₁ r) : Grows a (m + m') s r := by
  have hmid : s₁.allocated = s.allocated + m := h.allocated rfl
  have hfirst := h.ok.mp rfl
  refine ⟨hr.ok.trans ⟨fun hall n hlo hhi => ?_, fun hall n hlo hhi => ?_⟩, fun hok => ?_,
    hr.created.trans h.created, hr.threads.trans h.threads⟩
  · by_cases hn : n < s.allocated + m
    · exact hfirst n hlo hn
    · exact hall n (by omega) (by omega)
  · exact hall n (by omega) (by omega)
  · rw [hr.allocated hok, hmid]
    omega

theorem stop (h : Grows a m s (s₁, false)) (m' : Nat) : Grows a (m + m') s (s₁, false) := by
  refine ⟨⟨nofun, fun hall => ?_⟩, nofun, h.created, h.threads⟩
  exact h.ok.mpr fun n hlo hhi => hall n hlo (by omega)

end Grows

/-- From the row `j` on, the pointers of the matrix are NULL. -/
def Unset (i : MatrixNum) (m j : Nat) (s : Run) : Prop :=
  ∃ rows, s.matrices i = some rows ∧ ∀ k, j ≤ k → k < j + m → rows.ptrs[k]? = some none

theorem Unset.setRow {i : MatrixNum} {m j : Nat} (h : Unset i (m + 1) j s) (p : Option Nat) :
    Unset i m (j + 1) (s.setRow i j p) := by
  obtain ⟨rows, hrows, hnull⟩ := h
  refine ⟨rows.set j p, ?_, fun k hlo hhi => ?_⟩
  · rw [Run.setRow, Run.setMatrix_self, hrows]
    rfl
  · exact (List.getElem?_set_ne (by omega)).trans (hnull k (by omega) (by omega))

theorem Unset.blocksOf {i : MatrixNum} {m j : Nat} (h : Unset i (m + 1) j s) (p : Option Nat) :
    (Errors.blocksOf ((s.matrices i).map (Rows.set · j p))).Perm
      (p.toList ++ Errors.blocksOf (s.matrices i)) := by
  obtain ⟨rows, hrows, hnull⟩ := h
  rw [hrows]
  exact blocksOf_set (hnull j le_rfl (by omega)) p

theorem sized_row (h : Sized d s) (i : MatrixNum) (j : Nat) (p : Option Nat) :
    ∀ rows, (s.matrices i).map (Rows.set · j p) = some rows →
      rows.ptrs.length = (d.rows i).toNat := by
  intro rows hset
  obtain ⟨rows', hrows', rfl⟩ := Option.map_eq_some_iff.mp hset
  exact List.length_set.trans (h i rows' hrows')

theorem allocRows_spec {i : MatrixNum} {m j : Nat} (h : Kept d s) (hu : Unset i m j s) :
    Kept d (allocRows a i m j s).1 ∧ Grows a m s (allocRows a i m j s) ∧
      ∀ k, k ≠ i → (allocRows a i m j s).1.matrices k = s.matrices k := by
  induction m generalizing j s with
  | zero => exact ⟨h, .none a s, fun _ _ => rfl⟩
  | succ m ih =>
    rw [allocRows]
    split
    · rename_i hcalloc
      have hkept : Kept d (s.alloc.setRow i j (some s.allocated)) :=
        h.setAlloc (hu.blocksOf (some s.allocated)) (sized_row h.sized i j _)
      have hunset : Unset i m (j + 1) (s.alloc.setRow i j (some s.allocated)) :=
        Unset.setRow (s := s.alloc) hu _
      obtain ⟨hkept', hgrows, hothers⟩ := ih hkept hunset
      exact ⟨hkept', .cons hcalloc hgrows rfl rfl rfl,
        fun k hk => (hothers k hk).trans (s.alloc.setMatrix_of_ne hk _)⟩
    · rename_i hcalloc
      have hfalse : a.calloc s.allocated = false := Bool.eq_false_iff.mpr hcalloc
      exact ⟨h.setNone (hu.blocksOf none) (sized_row h.sized i j none), .fail hfalse rfl rfl,
        fun k hk => s.setMatrix_of_ne hk _⟩

theorem allocMatrix_spec {i : MatrixNum} (h : Kept d s) (hnone : s.matrices i = none) :
    Kept d (allocMatrix a d i s).1 ∧ Grows a ((d.rows i).toNat + 1) s (allocMatrix a d i s) ∧
      ∀ k, k ≠ i → (allocMatrix a d i s).1.matrices k = s.matrices k := by
  rw [allocMatrix]
  split
  · rename_i hcalloc
    have hblocks : (blocksOf (some ⟨s.allocated, List.replicate (d.rows i).toNat none⟩)).Perm
        (s.allocated :: blocksOf (s.matrices i)) := by
      rw [hnone]
      simp [blocksOf]
    have hkept := h.setAlloc hblocks fun rows hrows => by
      cases hrows
      exact List.length_replicate
    have hunset : Unset i (d.rows i).toNat 0
        (s.alloc.setMatrix i (some ⟨s.allocated, List.replicate (d.rows i).toNat none⟩)) :=
      ⟨_, s.alloc.setMatrix_self i _, fun k _ hk =>
        List.getElem?_replicate_of_lt (by simpa using hk)⟩
    obtain ⟨hkept', hgrows, hothers⟩ := allocRows_spec (a := a) hkept hunset
    exact ⟨hkept', .cons hcalloc hgrows rfl rfl rfl,
      fun k hk => (hothers k hk).trans (s.alloc.setMatrix_of_ne hk _)⟩
  · rename_i hcalloc
    have hfalse : a.calloc s.allocated = false := Bool.eq_false_iff.mpr hcalloc
    have hblocks : (blocksOf none).Perm (blocksOf (s.matrices i)) := by
      rw [hnone]
    exact ⟨h.setNone hblocks nofun, .fail hfalse rfl rfl, fun k hk => s.setMatrix_of_ne hk _⟩

theorem allocMatrices_spec {is : List MatrixNum} (h : Kept d s) (hnodup : is.Nodup)
    (hnone : ∀ i ∈ is, s.matrices i = none) :
    Kept d (allocMatrices a d is s).1 ∧
      Grows a (is.map fun i => (d.rows i).toNat + 1).sum s (allocMatrices a d is s) := by
  induction is generalizing s with
  | nil => exact ⟨h, .none a s⟩
  | cons i is ih =>
    obtain ⟨hi, hnodup'⟩ := List.nodup_cons.mp hnodup
    obtain ⟨hkept, hgrows, hothers⟩ := allocMatrix_spec (a := a) h (hnone i List.mem_cons_self)
    rw [allocMatrices, List.map_cons, List.sum_cons]
    split
    · rename_i hok
      have hnone' : ∀ k ∈ is, (allocMatrix a d i s).1.matrices k = none := by
        intro k hk
        have hki : k ≠ i := fun e => hi (e ▸ hk)
        exact (hothers k hki).trans (hnone k (List.mem_cons_of_mem i hk))
      obtain ⟨hkept', hgrows'⟩ := ih hkept hnodup' hnone'
      have hstep : Grows a ((d.rows i).toNat + 1) s ((allocMatrix a d i s).1, true) :=
        hok ▸ hgrows
      exact ⟨hkept', hstep.append hgrows'⟩
    · rename_i hok
      have hfalse : (allocMatrix a d i s).2 = false := Bool.eq_false_iff.mpr hok
      have hstep : Grows a ((d.rows i).toNat + 1) s ((allocMatrix a d i s).1, false) :=
        hfalse ▸ hgrows
      refine ⟨hkept, ?_⟩
      rw [show allocMatrix a d i s = ((allocMatrix a d i s).1, false) from Prod.ext rfl hfalse]
      exact hstep.stop _

theorem createThreads_spec (a : Answers) (m i : Nat) (s : Run) :
    ∃ k ≤ m, createThreads a m i s =
        ({ s with threadCount := s.threadCount + k, created := s.created + k }, decide (k = m)) ∧
      (∀ j < k, a.create (i + j) = 0) ∧ (k < m → a.create (i + k) ≠ 0) := by
  induction m generalizing i s with
  | zero => exact ⟨0, le_rfl, rfl, fun j hj => absurd hj (Nat.not_lt_zero j), nofun⟩
  | succ m ih =>
    rw [createThreads]
    split
    · rename_i hfail
      exact ⟨0, Nat.zero_le _, rfl, fun j hj => absurd hj (Nat.not_lt_zero j), fun _ => hfail⟩
    · rename_i hok
      obtain ⟨k, hk, hrun, hall, hlast⟩ := ih (i + 1) s.createThread
      refine ⟨k + 1, Nat.succ_le_succ hk, ?_, fun j hj => ?_, fun hlt => ?_⟩
      · rw [hrun]
        simp [Run.createThread, Nat.add_assoc, Nat.add_comm 1]
      · cases j with
        | zero => exact not_not.mp hok
        | succ j =>
          have hj' := hall j (Nat.lt_of_succ_lt_succ hj)
          rwa [Nat.add_assoc, Nat.add_comm 1] at hj'
      · have hlast' := hlast (Nat.lt_of_succ_lt_succ hlt)
        rwa [Nat.add_assoc, Nat.add_comm 1] at hlast'

/-! ## 5. All of `matrix_start` -/

/-- How often `calloc` is called when nothing fails. -/
def callocs (d : Dims) : Nat :=
  ([.A, .B, .C].map fun i => (d.rows i).toNat + 1).sum + 1

def AllocFails (a : Answers) (d : Dims) : Prop := ∃ n < callocs d, a.calloc n = false

def CreateFails (a : Answers) (d : Dims) : Prop := ∃ i < (d.rows .C).toNat, a.create i ≠ 0

theorem not_allocFails_iff : ¬ AllocFails a d ↔ ∀ n < callocs d, a.calloc n = true := by
  simp [AllocFails]

/-- What `setUp` has done: it has stopped at an allocation, or at the first thread that cannot be
    created, or nowhere. -/
theorem setUp_cases (a : Answers) (d : Dims) :
    Kept d (setUp a d).1 ∧
      ((AllocFails a d ∧ (setUp a d).2 = false ∧ (setUp a d).1.created = 0) ∨
        ¬ AllocFails a d ∧ ∃ k ≤ (d.rows .C).toNat, (setUp a d).1.created = k ∧
          (setUp a d).2 = decide (k = (d.rows .C).toNat) ∧ (∀ i < k, a.create i = 0) ∧
          (k < (d.rows .C).toNat → a.create k ≠ 0)) := by
  obtain ⟨hkept, hgrows⟩ := allocMatrices_spec (a := a) (start_kept d)
    (show [MatrixNum.A, .B, .C].Nodup by decide) (fun _ _ => rfl)
  have hfirst : (allocMatrices a d [.A, .B, .C] start).2 = true ↔
      ∀ n, n < callocs d - 1 → a.calloc n = true :=
    hgrows.ok.trans ⟨fun h n hn => h n (Nat.zero_le n) (lt_of_lt_of_eq hn (Nat.zero_add _).symm),
      fun h n _ hn => h n (lt_of_lt_of_eq hn (Nat.zero_add _))⟩
  unfold setUp
  cases hall : (allocMatrices a d [.A, .B, .C] start).2 with
  | false =>
    have hfails : AllocFails a d := by
      by_contra hnot
      have htrue := hfirst.mpr fun n hn => not_allocFails_iff.mp hnot n (by omega)
      exact absurd (hall.symm.trans htrue) (by decide)
    simp only [hall, Bool.false_eq_true, if_false]
    exact ⟨hkept, .inl ⟨hfails, trivial, hgrows.created⟩⟩
  | true =>
    have hcount : (allocMatrices a d [.A, .B, .C] start).1.allocated = callocs d - 1 :=
      (hgrows.allocated hall).trans (Nat.zero_add _)
    simp only [hall, if_true]
    split
    · rename_i hcalloc
      have hnot : ¬ AllocFails a d := by
        refine not_allocFails_iff.mpr fun n hn => ?_
        by_cases hlast : n = callocs d - 1
        · rw [hlast, ← hcount]
          exact hcalloc
        · exact hfirst.mp hall n (by omega)
      have hkept' := hkept.setThreads hgrows.threads
      obtain ⟨k, hk, hrun, hcreate, hlast⟩ := createThreads_spec a (d.rows .C).toNat 0
        { (allocMatrices a d [.A, .B, .C] start).1.alloc with
          threads := some (allocMatrices a d [.A, .B, .C] start).1.allocated }
      rw [hrun]
      refine ⟨⟨hkept'.sized, hkept'.held, hkept'.freed, hkept'.joined, ?_⟩,
        .inr ⟨hnot, k, hk, ?_, rfl, fun i hi => ?_, fun hlt => ?_⟩⟩
      · exact congrArg (· + k) hkept'.count
      · exact (congrArg (· + k) hgrows.created).trans (Nat.zero_add k)
      · exact Nat.zero_add i ▸ hcreate i hi
      · exact Nat.zero_add k ▸ hlast hlt
    · rename_i hcalloc
      have hfalse := Bool.eq_false_iff.mpr hcalloc
      rw [hcount] at hfalse
      exact ⟨hkept, .inl ⟨⟨_, Nat.lt_succ_self _, hfalse⟩, rfl, hgrows.created⟩⟩

/-- Each thread that was created is joined once, each block that was allocated is freed once, and
    nothing else is. -/
def CleanedUp (s : Run) : Prop :=
  s.joined = List.range s.created ∧ s.freed.Perm (List.range s.allocated)

/-- With all of it a failure is reported. -/
def Reported (r : Run × Int) : Prop := CleanedUp r.1 ∧ r.2 ≠ 0

theorem cleanUp_cleanedUp (h : Kept d s) (ret : Int) : CleanedUp (cleanUp a d ret s).1 := by
  rw [cleanUp_eq h.sized]
  refine ⟨?_, ?_⟩
  · show s.joined ++ List.range s.threadCount = List.range s.created
    rw [h.joined, h.count, List.nil_append]
  · show (s.freed ++ held s).Perm (List.range s.allocated)
    rw [h.freed, List.nil_append]
    exact h.held

theorem matrixStart_of_fails (hd : d.Accepted) (h : (setUp a d).2 = false) :
    matrixStart a d = cleanUp a d EXIT_FAILURE (setUp a d).1 := by
  simp [matrixStart, hd, h]

/-- **However it ends**, `matrix_start` joins what it has created and frees what it has allocated. -/
theorem matrixStart_cleanedUp (a : Answers) (d : Dims) : CleanedUp (matrixStart a d).1 := by
  by_cases hd : d.Accepted
  · obtain ⟨hkept, -⟩ := setUp_cases a d
    cases hok : (setUp a d).2 with
    | false =>
      rw [matrixStart_of_fails hd hok]
      exact cleanUp_cleanedUp hkept EXIT_FAILURE
    | true =>
      -- the threads are joined before the label, which then finds none
      simp only [matrixStart, if_pos hd, hok, if_true, joinThreads_eq, Nat.zero_add,
        ← List.range_eq_range']
      rw [cleanUp_eq (by exact hkept.sized)]
      refine ⟨?_, ?_⟩
      · show (setUp a d).1.joined ++ List.range (setUp a d).1.threadCount ++ [] =
          List.range (setUp a d).1.created
        rw [hkept.joined, hkept.count, List.nil_append, List.append_nil]
      · show ((setUp a d).1.freed ++ held (setUp a d).1).Perm (List.range (setUp a d).1.allocated)
        rw [hkept.freed, List.nil_append]
        exact hkept.held
  · unfold matrixStart
    rw [if_neg hd]
    exact cleanUp_cleanedUp (start_kept d) EXIT_FAILURE

/-- When the set-up fails, the status is that of the last join, if there is one. -/
theorem reported_iff_of_fails (hd : d.Accepted) (h : (setUp a d).2 = false) :
    Reported (matrixStart a d) ↔ ((setUp a d).1.created = 0 ∨
      a.join ((setUp a d).1.created - 1) ≠ 0) := by
  have hkept := (setUp_cases a d).1
  have hstatus : (matrixStart a d).2 = if (setUp a d).1.threadCount = 0 then EXIT_FAILURE else
      a.join ((setUp a d).1.threadCount - 1) := by
    rw [matrixStart_of_fails hd h, cleanUp_eq hkept.sized]
  rw [Reported, and_iff_right (matrixStart_cleanedUp a d), hstatus, hkept.count]
  by_cases hnone : (setUp a d).1.created = 0
  · simp [hnone]
  · simp [hnone]

/-- **A failure is reported exactly if no thread is there yet, or the last thread that is there
    cannot be joined**: otherwise the status of that join takes the place of the failure. -/
theorem failure_reported_iff (a : Answers) (d : Dims) (hd : d.Accepted)
    (hfail : AllocFails a d ∨ CreateFails a d) :
    Reported (matrixStart a d) ↔
      AllocFails a d ∨ a.create 0 ≠ 0 ∨
        ∃ k, (∀ i ≤ k, a.create i = 0) ∧ a.create (k + 1) ≠ 0 ∧ a.join k ≠ 0 := by
  obtain ⟨-, ⟨halloc, hok, hcreated⟩ | ⟨halloc, k, hk, hcreated, hok, hall, hlast⟩⟩ :=
    setUp_cases a d
  · rw [reported_iff_of_fails hd hok]
    exact ⟨fun _ => .inl halloc, fun _ => .inl hcreated⟩
  · obtain ⟨i, hi, hfails⟩ : CreateFails a d := hfail.resolve_left halloc
    have hki : k ≤ i := by
      by_contra hlt
      exact hfails (hall i (Nat.lt_of_not_le hlt))
    have hkr : k < (d.rows .C).toNat := lt_of_le_of_lt hki hi
    rw [reported_iff_of_fails hd (hok.trans (decide_eq_false (Nat.ne_of_lt hkr))), hcreated]
    constructor
    · intro h
      rcases Nat.eq_zero_or_pos k with rfl | hpos
      · exact .inr (.inl (hlast hkr))
      · have hjoin : a.join (k - 1) ≠ 0 := h.resolve_left (Nat.ne_of_gt hpos)
        refine .inr (.inr ⟨k - 1, fun j hj => hall j (by omega), ?_, hjoin⟩)
        rw [Nat.sub_add_cancel hpos]
        exact hlast hkr
    · intro h
      rcases h with h | hfirst | ⟨j, hj, hnext, hjoin⟩
      · exact absurd h halloc
      · refine .inl (Nat.eq_zero_of_not_pos fun hpos => ?_)
        exact hfirst (hall 0 hpos)
      · -- the failing call that comes behind successful ones is the first one
        have hle : k ≤ j + 1 := by
          by_contra hlt
          exact hnext (hall (j + 1) (Nat.lt_of_not_le hlt))
        have hge : j + 1 ≤ k := by
          by_contra hlt
          exact hlast hkr (hj k (by omega))
        have hkj : k = j + 1 := le_antisymm hle hge
        subst hkj
        exact .inr hjoin

/-- There is no memory for the second row of the second matrix. -/
def shortOfMemory : Answers := ⟨fun n => decide (n ≠ 4), fun _ => 0, fun _ => 0⟩

theorem failure_reported_shortOfMemory :
    (dims 2 2 2 2).Accepted ∧ AllocFails shortOfMemory (dims 2 2 2 2) ∧
      Reported (matrixStart shortOfMemory (dims 2 2 2 2)) := by
  have hd : (dims 2 2 2 2).Accepted := by decide
  have halloc : AllocFails shortOfMemory (dims 2 2 2 2) := ⟨4, by decide, by decide⟩
  exact ⟨hd, halloc,
    (failure_reported_iff shortOfMemory (dims 2 2 2 2) hd (.inl halloc)).mpr (.inl halloc)⟩

/-- There is room for one thread only. -/
def oneThread : Answers := ⟨fun _ => true, fun i => if i = 0 then 0 else 11, fun _ => 0⟩

theorem failure_not_reported :
    ¬ ∀ (a : Answers) (d : Dims), d.Accepted → AllocFails a d ∨ CreateFails a d →
      Reported (matrixStart a d) := by
  intro h
  have hfails : CreateFails oneThread (dims 2 1 1 1) := ⟨1, by decide, by decide⟩
  have hreported := h oneThread (dims 2 1 1 1) (by decide) (.inr hfails)
  exact hreported.2 (by decide)

end Errors
end MatrixProduct
end Labs
