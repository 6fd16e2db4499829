import Mathlib.Data.List.Perm.Basic
import Mathlib.Logic.Function.Basic

/-!
# Queues under a name

A name refers to one queue at most. Whoever opens the name gets the number of the queue that it
refers to, and makes a queue if it refers to none. When the name is removed, a number that was given
out before is not the one that the next opening gives out.

What is sent is to be received, or to be found under the name (`Kept`).
-/

namespace Labs
namespace Lib

structure QueueTable (α : Type) where
  name : Option Nat
  queues : Nat → List α
  created : Nat

namespace QueueTable

variable {α : Type} {t : QueueTable α} {q : Nat} {l : List α}

def empty : QueueTable α := ⟨none, fun _ => [], 0⟩

/-- What is in the queue that the name refers to. -/
def contents (t : QueueTable α) : List α :=
  match t.name with
  | some q => t.queues q
  | none => []

/-- The number that an opening gives out. -/
def number (t : QueueTable α) : Nat := t.name.getD t.created

def openName (t : QueueTable α) : QueueTable α :=
  match t.name with
  | some _ => t
  | none => ⟨some t.created, Function.update t.queues t.created [], t.created + 1⟩

def set (t : QueueTable α) (q : Nat) (l : List α) : QueueTable α :=
  { t with queues := Function.update t.queues q l }

def removeName (t : QueueTable α) : QueueTable α := { t with name := none }

@[simp] theorem contents_empty : (empty : QueueTable α).contents = [] := rfl

@[simp] theorem set_name (t : QueueTable α) (q : Nat) (l : List α) : (t.set q l).name = t.name := rfl

@[simp] theorem removeName_name (t : QueueTable α) : t.removeName.name = none := rfl

@[simp] theorem contents_removeName (t : QueueTable α) : t.removeName.contents = [] := rfl

theorem contents_of_name (h : t.name = some q) : t.contents = t.queues q := by
  simp [contents, h]

theorem openName_of_name (h : t.name = some q) : t.openName = t := by
  simp [openName, h]

@[simp] theorem openName_name (t : QueueTable α) : t.openName.name = some t.number := by
  unfold openName number
  split
  · rename_i q hname
    simp [hname]
  · rename_i hname
    simp [hname]

/-- A new queue is empty. -/
@[simp] theorem contents_openName (t : QueueTable α) : t.openName.contents = t.contents := by
  unfold openName
  split
  · rfl
  · rename_i hname
    simp [contents, hname]

theorem contents_set (h : t.name = some q) : (t.set q l).contents = l := by
  rw [contents_of_name (by rw [set_name, h])]
  exact Function.update_self ..

/-- A queue that lost its name is out of sight. -/
theorem contents_set_of_ne (h : t.name ≠ some q) : (t.set q l).contents = t.contents := by
  cases hname : t.name with
  | none => simp [contents, hname]
  | some q' =>
    rw [contents_of_name (by rw [set_name, hname]), contents_of_name hname]
    refine Function.update_of_ne (fun hq => h ?_) _ _
    rw [hname, hq]

end QueueTable

/-! ## What is sent -/

section Kept

variable {β : Type} {sent received xs q q' : List β}

/-- Nothing that was sent is lost, and nothing was received twice. -/
def Kept (sent received q : List β) : Prop := sent.Perm (received ++ q)

theorem Kept.send (h : Kept sent received q) (hq : q'.Perm (q ++ xs)) :
    Kept (sent ++ xs) received q' := by
  have hsent : (sent ++ xs).Perm (received ++ q ++ xs) := h.append_right xs
  rw [List.append_assoc] at hsent
  exact hsent.trans (hq.symm.append_left received)

theorem Kept.receive (h : Kept sent received q) (hq : q.Perm (xs ++ q')) :
    Kept sent (received ++ xs) q' := by
  have hsent : sent.Perm (received ++ (xs ++ q')) := h.trans (hq.append_left received)
  rw [Kept, List.append_assoc]
  exact hsent

end Kept

end Lib
end Labs
