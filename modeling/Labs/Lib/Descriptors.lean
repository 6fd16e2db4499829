import Mathlib.Data.List.Nodup
import Mathlib.Logic.Function.Basic

/-!
# File descriptor tables

A table maps a descriptor to the open file description it refers to, of a type `δ`; from
`bound` on nothing is open, so there is always a free descriptor. A descriptor variable of a
program is an `Fd`, and `none` is `-1`. `dup2` and `close` answer `none` where they would
return `-1`. Which free descriptor the system hands out is left to an `Alloc`.

`Extends t base l` is how a program that opens and closes descriptors is followed: the table
`t` is `base` and, beside it, the descriptors `l`, which are none of the standard three and none
of `base`. Each operation is one rule about `l` or about `base`: opening adds to `l`, closing
takes away from it, and `dup2` onto a standard descriptor changes `base`.
-/

namespace Labs
namespace Lib

structure Table (δ : Type) where
  get : Nat → Option δ
  bound : Nat
  closed : ∀ fd, bound ≤ fd → get fd = none

abbrev Fd := Option Nat

variable {δ : Type}

namespace Table

def set (t : Table δ) (fd : Nat) (d : Option δ) : Table δ where
  get := Function.update t.get fd d
  bound := max t.bound (fd + 1)
  closed k hk := by
    have hne : k ≠ fd := by
      rintro rfl
      exact absurd (Nat.le_trans (Nat.le_max_right _ _) hk) (Nat.not_succ_le_self _)
    rw [Function.update_of_ne hne]
    exact t.closed k (Nat.le_trans (Nat.le_max_left _ _) hk)

def dup2 (t : Table δ) (old : Fd) (new : Nat) : Option (Table δ) :=
  match old with
  | none => none
  | some old => (t.get old).map fun d => t.set new (some d)

def close (t : Table δ) (fd : Fd) : Option (Table δ) :=
  match fd with
  | none => none
  | some fd => (t.get fd).map fun _ => t.set fd none

end Table

/-- The system's choice of a new descriptor: free, and none of the standard three. -/
structure Alloc (δ : Type) where
  pick : Table δ → Nat
  free : ∀ t : Table δ, t.get (pick t) = none
  high : ∀ t : Table δ, 2 < pick t

namespace Alloc

/-- The first descriptor above all that are open. -/
def top : Alloc δ where
  pick t := max t.bound 3
  free t := t.closed _ (Nat.le_max_left _ _)
  high _ := Nat.le_max_right _ _

def openFile (a : Alloc δ) (t : Table δ) (d : δ) : Nat × Table δ :=
  (a.pick t, t.set (a.pick t) (some d))

end Alloc

/-! ## A base and what was opened beside it -/

structure Extends (t : Table δ) (base : Nat → Option δ) (l : List (Nat × δ)) : Prop where
  get : ∀ fd, t.get fd = (l.lookup fd).or (base fd)
  nodup : (l.map Prod.fst).Nodup
  high : ∀ e ∈ l, 2 < e.1
  free : ∀ e ∈ l, base e.1 = none

namespace Extends

variable {t : Table δ} {base : Nat → Option δ} {l l₁ l₂ : List (Nat × δ)} {k : Nat} {d : δ}

theorem refl (t : Table δ) : Extends t t.get [] :=
  ⟨fun _ => rfl, List.nodup_nil, nofun, nofun⟩

theorem get_of_nil (h : Extends t base []) : t.get = base := funext h.get

theorem lookup_of_not_mem {fd : Nat} (h : fd ∉ l.map Prod.fst) : l.lookup fd = none := by
  rw [List.lookup_eq_none_iff]
  intro e he
  have hne : fd ≠ e.1 := fun heq => h (heq ▸ List.mem_map_of_mem he)
  simpa using hne

theorem lookup_mid (hnot : k ∉ l₁.map Prod.fst) (fd : Nat) :
    (l₁ ++ (k, d) :: l₂).lookup fd = if fd = k then some d else (l₁ ++ l₂).lookup fd := by
  induction l₁ with
  | nil =>
    rw [List.nil_append, List.nil_append, List.lookup_cons]
    by_cases hfd : fd = k
    · simp [hfd]
    · simp [hfd, beq_eq_false_iff_ne.mpr hfd]
  | cons e l₁ ih =>
    rw [List.map_cons, List.mem_cons, not_or] at hnot
    rw [List.cons_append, List.cons_append, List.lookup_cons, List.lookup_cons, ih hnot.2]
    by_cases hfd : fd = e.1
    · have hne : fd ≠ k := fun heq => hnot.1 (heq.symm.trans hfd)
      simp [hfd, hfd ▸ hne]
    · simp [beq_eq_false_iff_ne.mpr hfd]

/-- The standard descriptors are those of the base. -/
theorem get_std (h : Extends t base l) {fd : Nat} (hfd : fd ≤ 2) : t.get fd = base fd := by
  have hnot : fd ∉ l.map Prod.fst := by
    intro hm
    obtain ⟨e, he, rfl⟩ := List.mem_map.mp hm
    exact absurd hfd (Nat.not_le.mpr (h.high e he))
  rw [h.get, lookup_of_not_mem hnot]
  rfl

theorem mid_nodup (h : Extends t base (l₁ ++ (k, d) :: l₂)) :
    k ∉ l₁.map Prod.fst ∧ k ∉ (l₁ ++ l₂).map Prod.fst ∧ ((l₁ ++ l₂).map Prod.fst).Nodup := by
  have hnd := h.nodup
  rw [List.map_append, List.map_cons, List.nodup_middle, List.nodup_cons] at hnd
  rw [List.map_append]
  exact ⟨fun hm => hnd.1 (List.mem_append_left _ hm), hnd⟩

theorem get_mid (h : Extends t base (l₁ ++ (k, d) :: l₂)) : t.get k = some d := by
  rw [h.get, lookup_mid h.mid_nodup.1, if_pos rfl]
  rfl

theorem openFile (h : Extends t base l) (a : Alloc δ) (d : δ) :
    Extends (a.openFile t d).2 base ((a.pick t, d) :: l) := by
  have hfree := a.free t
  rw [h.get, Option.or_eq_none_iff] at hfree
  refine ⟨fun fd => ?_, ?_, ?_, ?_⟩
  · show Function.update t.get (a.pick t) (some d) fd = _
    rw [List.lookup_cons]
    by_cases hfd : fd = a.pick t
    · rw [hfd, Function.update_self]
      simp
    · rw [Function.update_of_ne hfd, beq_eq_false_iff_ne.mpr hfd]
      exact h.get fd
  · rw [List.map_cons, List.nodup_cons]
    refine ⟨fun hm => ?_, h.nodup⟩
    obtain ⟨e, he, heq⟩ := List.mem_map.mp hm
    have hnone := List.lookup_eq_none_iff.mp hfree.1 e he
    exact absurd heq.symm (by simpa using hnone)
  · intro e he
    rcases List.mem_cons.mp he with rfl | he
    · exact a.high t
    · exact h.high e he
  · intro e he
    rcases List.mem_cons.mp he with rfl | he
    · exact hfree.2
    · exact h.free e he

theorem dup2 (h : Extends t base (l₁ ++ (k, d) :: l₂)) {new : Nat} (hnew : new ≤ 2) :
    ∃ t', t.dup2 (some k) new = some t' ∧
      Extends t' (Function.update base new (some d)) (l₁ ++ (k, d) :: l₂) := by
  refine ⟨t.set new (some d), by rw [Table.dup2, h.get_mid, Option.map_some], ?_⟩
  refine ⟨fun fd => ?_, h.nodup, h.high, fun e he => ?_⟩
  · show Function.update t.get new (some d) fd = _
    by_cases hfd : fd = new
    · have hnot : fd ∉ (l₁ ++ (k, d) :: l₂).map Prod.fst := by
        intro hm
        obtain ⟨e, he, heq⟩ := List.mem_map.mp hm
        exact absurd (Nat.le_trans (Nat.le_of_eq (heq.trans hfd)) hnew)
          (Nat.not_le.mpr (h.high e he))
      rw [lookup_of_not_mem hnot, hfd, Function.update_self, Function.update_self]
      rfl
    · rw [Function.update_of_ne hfd, Function.update_of_ne hfd, h.get]
  · have hne : e.1 ≠ new := Nat.ne_of_gt (Nat.lt_of_le_of_lt hnew (h.high e he))
    rw [Function.update_of_ne hne]
    exact h.free e he

theorem close (h : Extends t base (l₁ ++ (k, d) :: l₂)) :
    ∃ t', t.close (some k) = some t' ∧ Extends t' base (l₁ ++ l₂) := by
  refine ⟨t.set k none, by rw [Table.close, h.get_mid, Option.map_some], ?_⟩
  obtain ⟨hnot₁, hnot, hnd⟩ := h.mid_nodup
  have hsub : ∀ e ∈ l₁ ++ l₂, e ∈ l₁ ++ (k, d) :: l₂ := by
    intro e he
    rcases List.mem_append.mp he with he | he
    · exact List.mem_append_left _ he
    · exact List.mem_append_right _ (List.mem_cons_of_mem _ he)
  refine ⟨fun fd => ?_, hnd, fun e he => h.high e (hsub e he), fun e he => h.free e (hsub e he)⟩
  show Function.update t.get k none fd = _
  by_cases hfd : fd = k
  · have hbase : base k = none := h.free (k, d) (by simp)
    rw [hfd, Function.update_self, lookup_of_not_mem hnot, hbase]
    rfl
  · rw [Function.update_of_ne hfd, h.get, lookup_mid hnot₁, if_neg hfd]

end Extends

end Lib
end Labs
