import Labs.AddressBook.Program

/-!
# What `add` reports

`add` copies the new customer into the first free slot, and sets `i` to zero there. Where the loop has
found no slot, `i >= MAX_PRIV` afterwards, and a complaint is printed; but the function goes on behind
it, prints that the customer was added, and returns `OK`. So its report is true exactly when a slot is
free.
-/

namespace Labs
namespace AddressBook

open Lib

variable {slots : Slots} {p newPriv : Priv} {inp rest : List UInt8} {i j : Nat}

/-! ## 1. The first free slot -/

/-- Slot `i` is free, and those below it are not. -/
def Slots.FirstFree (slots : Slots) (i : Nat) : Prop :=
  (∃ p, slots.list[i]? = some p ∧ p.free = true) ∧
    ∀ j < i, ∀ p, slots.list[j]? = some p → p.free = false

/-- Slot `i` holds `p`, and the others are as they were. -/
def Slots.Holds (slots' : Slots) (slots : Slots) (i : Nat) (p : Priv) : Prop :=
  ∀ j, slots'.list[j]? = if j = i then some p else slots.list[j]?

/-- The loop of `add` comes to the first free slot. -/
theorem firstFree_of_eq_some (h : slots.firstFree = some i) : slots.FirstFree i := by
  obtain ⟨hi, hfree, hbelow⟩ := List.findIdx?_eq_some_iff_getElem.mp h
  refine ⟨⟨_, List.getElem?_eq_getElem hi, hfree⟩, fun j hj p hp => ?_⟩
  obtain ⟨hlt, rfl⟩ := List.getElem?_eq_some_iff.mp hp
  exact eq_false_of_ne_true (hbelow j hj)

/-- … or runs through all of them. -/
theorem firstFree_eq_none : slots.firstFree = none ↔ ∀ p ∈ slots.list, p.free = false :=
  List.findIdx?_eq_none_iff

theorem Slots.FirstFree.lt (h : slots.FirstFree i) : i < slots.list.length := by
  obtain ⟨⟨p, hp, -⟩, -⟩ := h
  exact (List.getElem?_eq_some_iff.mp hp).1

theorem holds_set (hi : i < slots.list.length) : (slots.set i p).Holds slots i p := by
  intro j
  show (slots.list.set i p)[j]? = _
  split
  · rename_i heq
    rw [heq, List.getElem?_set_self hi]
  · rename_i hne
    rw [List.getElem?_set_ne (Ne.symm hne)]

/-! ## 2. The report -/

/-- "Added the new customer!" is printed. -/
def Said.Added : Said → Prop
  | .added _ | .outOfSpace _ => True
  | _ => False

/-- `add` reports success. -/
def Result.Succeeds (r : Result) : Prop := r.status = OK ∧ r.said.Added

/-- Success is reported if and only if the first free slot holds the customer now, and nothing else
    has changed; and if no slot was free, failure is reported and nothing has changed. -/
structure Truthful (slots : Slots) (newPriv : Priv) (r : Result) : Prop where
  success : r.Succeeds ↔ ∃ i, slots.FirstFree i ∧ r.slots.Holds slots i newPriv
  full : (∀ p ∈ slots.list, p.free = false) → ¬ r.Succeeds ∧ r.slots = slots

/-- What `add` does with a customer that has been typed in. -/
theorem add_of_readPriv (h : readPriv inp = .ok (some newPriv, rest)) :
    add slots inp = match slots.firstFree with
      | none => .ok ⟨OK, .outOfSpace newPriv, slots, rest⟩
      | some i => .ok ⟨OK, .added newPriv, slots.set i newPriv, rest⟩ :=
  bind_of_ok h _

/-- A customer that has been typed in is always said to have been added. -/
theorem add_succeeds (slots : Slots) (h : readPriv inp = .ok (some newPriv, rest)) :
    ∃ r, add slots inp = .ok r ∧ r.Succeeds := by
  rw [add_of_readPriv h]
  cases slots.firstFree with
  | none => exact ⟨_, rfl, rfl, trivial⟩
  | some i => exact ⟨_, rfl, rfl, trivial⟩

/-- **The report of `add` is true if and only if a slot is free.** -/
theorem add_truthful_iff (slots : Slots) (h : readPriv inp = .ok (some newPriv, rest)) :
    ∃ r, add slots inp = .ok r ∧ (Truthful slots newPriv r ↔ ∃ p ∈ slots.list, p.free = true) := by
  obtain ⟨r, hadd, hsuccess⟩ := add_succeeds slots h
  refine ⟨r, hadd, ?_⟩
  rw [add_of_readPriv h] at hadd
  cases hfree : slots.firstFree with
  | none =>
    have hfull := firstFree_eq_none.mp hfree
    constructor
    · exact fun htrue => absurd hsuccess (htrue.full hfull).1
    · rintro ⟨p, hp, hpfree⟩
      cases hpfree.symm.trans (hfull p hp)
  | some i =>
    have hfirst := firstFree_of_eq_some hfree
    rw [hfree] at hadd
    cases hadd
    obtain ⟨p, hp, hpfree⟩ := hfirst.1
    have hmem := List.mem_of_getElem? hp
    refine ⟨fun _ => ⟨p, hmem, hpfree⟩, fun _ => ⟨?_, fun hfull => ?_⟩⟩
    · exact ⟨fun _ => ⟨i, hfirst, holds_set hfirst.lt⟩, fun _ => hsuccess⟩
    · cases hpfree.symm.trans (hfull p hmem)

/-- `a`, `b`, `c`, `1`, `o` and `5`, each on its line. -/
def typedLetters : List UInt8 :=
  [97, NEWLINE, 98, NEWLINE, 99, NEWLINE, 49, NEWLINE, 111, NEWLINE, 53, NEWLINE]

/-- The customer `a`. -/
def typedCustomer : Priv where
  name := ⟨[97], by decide, by decide⟩
  middleName := ⟨[98], by decide, by decide⟩
  lastName := ⟨[99], by decide, by decide⟩
  phoneNumber := ⟨[49], by decide, by decide⟩
  occupation := ⟨[111], by decide, by decide⟩
  age := 5

/-- The customer is in all slots. -/
def fullSlots : Slots := ⟨List.replicate MAX_PRIV typedCustomer, List.length_replicate⟩

theorem add_truthful_empty :
    ∃ r, add .zero typedLetters = .ok r ∧
      (Truthful .zero typedCustomer r ↔ ∃ p ∈ Slots.zero.list, p.free = true) :=
  add_truthful_iff .zero (show readPriv typedLetters = .ok (some typedCustomer, []) from rfl)

/-- It is added once more, and success is reported. -/
theorem full_book_succeeds :
    readPriv typedLetters = .ok (some typedCustomer, []) ∧
      ∃ r, add fullSlots typedLetters = .ok r ∧ r.Succeeds ∧ r.slots = fullSlots ∧
        ¬ Truthful fullSlots typedCustomer r := by
  have hread : readPriv typedLetters = .ok (some typedCustomer, []) := rfl
  have hfull : ∀ p ∈ fullSlots.list, p.free = false := by
    intro p hp
    rw [List.eq_of_mem_replicate hp]
    rfl
  refine ⟨hread, ⟨OK, .outOfSpace typedCustomer, fullSlots, []⟩, ?_, ⟨rfl, trivial⟩, rfl, ?_⟩
  · rw [add_of_readPriv hread, firstFree_eq_none.mpr hfull]
  · exact fun htrue => (htrue.full hfull).1 ⟨rfl, trivial⟩

end AddressBook
end Labs
