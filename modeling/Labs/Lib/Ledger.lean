import Labs.Lib.Calls
import Mathlib.Data.List.Nodup

/-!
# Blocks that are allocated and freed

A ledger has the blocks that are live and those that were freed. No block is in it twice, so what is
freed is freed once. Freeing a block that is not live is the error `useAfterFree`. Its contents are
left out.
-/

namespace Labs
namespace Lib

structure Ledger where
  live : List Nat
  freed : List Nat
  brk : Nat
  nodup : (live ++ freed).Nodup
  below : ∀ a ∈ live ++ freed, a < brk

namespace Ledger

variable {l : Ledger} {a : Nat} {rest : List Nat}

def empty : Ledger := ⟨[], [], 0, List.nodup_nil, fun _ h => absurd h List.not_mem_nil⟩

theorem alloc_nodup (l : Ledger) (k : Nat) :
    (List.range' l.brk k ++ l.live ++ l.freed).Nodup := by
  rw [List.append_assoc]
  refine List.Nodup.append (List.nodup_range' 1 Nat.one_pos) l.nodup ?_
  intro a hnew hold
  have hle := (List.mem_range'_1.mp hnew).1
  have hlt := l.below a hold
  omega

theorem alloc_below (l : Ledger) (k : Nat) :
    ∀ a ∈ List.range' l.brk k ++ l.live ++ l.freed, a < l.brk + k := by
  intro a ha
  rw [List.append_assoc, List.mem_append] at ha
  obtain hnew | hold := ha
  · exact (List.mem_range'_1.mp hnew).2
  · have hlt := l.below a hold
    omega

/-- `k` blocks that were never in use. -/
def alloc (l : Ledger) (k : Nat) : List Nat × Ledger :=
  (List.range' l.brk k,
    ⟨List.range' l.brk k ++ l.live, l.freed, l.brk + k, l.alloc_nodup k, l.alloc_below k⟩)

theorem erase_perm (ha : a ∈ l.live) : (l.live.erase a ++ a :: l.freed).Perm (l.live ++ l.freed) := by
  have hlive := (List.perm_cons_erase ha).symm
  exact List.perm_middle.trans (hlive.append_right l.freed)

theorem erase_nodup (ha : a ∈ l.live) : (l.live.erase a ++ a :: l.freed).Nodup :=
  (erase_perm ha).nodup_iff.mpr l.nodup

theorem erase_below (ha : a ∈ l.live) : ∀ b ∈ l.live.erase a ++ a :: l.freed, b < l.brk := by
  intro b hb
  exact l.below b ((erase_perm ha).mem_iff.mp hb)

/-- `free(p)`. -/
def free (l : Ledger) : Option Nat → Except Stop Ledger
  | none => .ok l
  | some a =>
    if ha : a ∈ l.live then
      .ok ⟨l.live.erase a, a :: l.freed, l.brk, erase_nodup ha, erase_below ha⟩
    else .error .useAfterFree

/-- What is live can be freed. -/
theorem free_live (h : l.live.Perm (a :: rest)) :
    ∃ l', l.free (some a) = .ok l' ∧ l'.live.Perm rest ∧ l'.freed = a :: l.freed := by
  have ha : a ∈ l.live := h.mem_iff.mpr (List.mem_cons_self ..)
  refine ⟨_, dif_pos ha, ?_, rfl⟩
  have herase := h.erase a
  rwa [List.erase_cons_head] at herase

end Ledger

end Lib
end Labs
