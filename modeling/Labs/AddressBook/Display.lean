import Mathlib.Data.List.Perm.Basic
import Labs.AddressBook.Program

/-!
# What is displayed

`remove_` makes a slot in the middle of the array free, and `add` takes the first one that is; but
`display` walks up to the first free slot only. So it shows the customers that are stored exactly if
no slot is free before one that is not (`Packed`). The customers that are stored, by what has been
said, are those that are in the slots: every one added and not removed.

An `add` to a full ledger says on one stream that it has failed, and on the other one that the
customer was added. If that counts, no such `add` may have been made (`display_iff`).

## Counting by permutations

The order of the slots is not the order in which customers were added, since `add` fills the first
hole. So lists of customers are compared up to their order, and each customer as often as it occurs:
two customers with the same data are two. Adding one is a `cons` of the filtered list up to
permutation (`filter_set_perm`), removing one is the inverse (`filter_perm_set`).

`stored` and `reported` are computed from what has been said, and from nothing in the memory. That
the slots have the stored customers is an invariant (`Inv`), kept by what each command can do
(`Effect`), which leaves out how it was typed. The two differ by the customers for which there was
no slot, and that is an invariant as well.

So the question what a display shows comes down to one about a list with holes: its longest front
without a hole has all that it has exactly if no hole is in front of anything
(`takeWhile_perm_filter_iff`).
-/

namespace Labs
namespace AddressBook

open Lib

variable {b b' : Book} {slots : Slots} {p : Priv} {i : Nat}

/-! ## 1. Filters of a list with slots -/

section Lists

variable {α : Type} {occupied : α → Bool} {xs : List α} {x y : α}

/-- One more element of a list passes the filter. -/
theorem filter_set_perm {i : Nat} (hx : xs[i]? = some x) (hfree : occupied x = false)
    (hy : occupied y = true) :
    ((xs.set i y).filter occupied).Perm (y :: xs.filter occupied) := by
  induction xs generalizing i with
  | nil => cases hx
  | cons z xs ih =>
    cases i with
    | zero =>
      cases hx
      rw [List.set_cons_zero, List.filter_cons_of_pos hy,
        List.filter_cons_of_neg (by rw [hfree]; exact Bool.false_ne_true)]
    | succ i =>
      rw [List.set_cons_succ]
      have hrest := ih hx
      by_cases hz : occupied z = true
      · rw [List.filter_cons_of_pos hz, List.filter_cons_of_pos hz]
        exact (hrest.cons z).trans (List.Perm.swap y z _)
      · rw [List.filter_cons_of_neg hz, List.filter_cons_of_neg hz]
        exact hrest

/-- One element less. -/
theorem filter_perm_set {i : Nat} (hx : xs[i]? = some x) (hx' : occupied x = true)
    (hy : occupied y = false) :
    (xs.filter occupied).Perm (x :: (xs.set i y).filter occupied) := by
  obtain ⟨hlt, hget⟩ := List.getElem?_eq_some_iff.mp hx
  have hback : (xs.set i y).set i x = xs := by
    rw [List.set_set, ← hget, List.set_getElem_self]
  have hset : (xs.set i y)[i]? = some y := List.getElem?_set_self hlt
  have hperm := filter_set_perm hset hy hx'
  rwa [hback] at hperm

/-- The front of a list is all that passes the filter if it passes in front. -/
theorem takeWhile_perm_filter_iff :
    (xs.takeWhile occupied).Perm (xs.filter occupied) ↔
      xs.Pairwise fun x y => occupied x = false → occupied y = false := by
  induction xs with
  | nil => simp
  | cons z xs ih =>
    by_cases hz : occupied z = true
    · rw [List.takeWhile_cons_of_pos hz, List.filter_cons_of_pos hz, List.perm_cons, ih,
        List.pairwise_cons]
      exact ⟨fun h => ⟨fun _ _ hfree => absurd (hz.symm.trans hfree) (by decide), h⟩, fun h => h.2⟩
    · have hfree : occupied z = false := Bool.eq_false_iff.mpr hz
      rw [List.takeWhile_cons_of_neg hz, List.filter_cons_of_neg hz, List.pairwise_cons,
        List.nil_perm, List.filter_eq_nil_iff]
      constructor
      · intro hall
        have hnone : ∀ y ∈ xs, occupied y = false := fun y hy => Bool.eq_false_iff.mpr (hall y hy)
        exact ⟨fun y hy _ => hnone y hy,
          List.pairwise_of_forall_mem_list fun _ _ y hy _ => hnone y hy⟩
      · intro h y hy
        exact Bool.eq_false_iff.mp (h.1 y hy hfree)

theorem length_takeWhile_le_filter :
    (xs.takeWhile occupied).length ≤ (xs.filter occupied).length := by
  have hself : (xs.takeWhile occupied).filter occupied = xs.takeWhile occupied :=
    List.filter_eq_self.mpr fun x hx => List.mem_takeWhile_imp hx
  calc (xs.takeWhile occupied).length = ((xs.takeWhile occupied).filter occupied).length := by
        rw [hself]
    _ ≤ (xs.filter occupied).length :=
      ((List.takeWhile_sublist occupied).filter occupied).length_le

end Lists

/-! ## 2. What has been said -/

def Priv.occupied (p : Priv) : Bool := !p.free

/-- Behind a free slot there are only free ones. -/
def Packed (slots : Slots) : Prop :=
  slots.list.Pairwise fun p q => p.occupied = false → q.occupied = false

/-- The customers that were added to a slot and not removed. -/
def stored : List Said → List Priv
  | [] => []
  | .added p :: said => p :: stored said
  | .removed p :: said => (stored said).erase p
  | _ :: said => stored said

/-- The customers that found no slot. -/
def refused : List Said → List Priv
  | [] => []
  | .outOfSpace p :: said => p :: refused said
  | _ :: said => refused said

/-- The customers that were said to be added, and not removed. -/
def reported : List Said → List Priv
  | [] => []
  | .added p :: said => p :: reported said
  | .outOfSpace p :: said => p :: reported said
  | .removed p :: said => (reported said).erase p
  | _ :: said => reported said

/-- It is of no customer that is added or removed, and no display. -/
def Said.Quiet : Said → Prop
  | .notRemoved | .found _ | .options | .unknown | .failed => True
  | _ => False

/-- What a command does to the slots. -/
inductive Effect (slots : Slots) : Said → Slots → Prop
  | added {p q : Priv} {i : Nat} (hi : slots.list[i]? = some q) (hq : q.free = true)
      (hp : p.free = false) : Effect slots (.added p) (slots.set i p)
  | outOfSpace {p : Priv} (hfull : slots.firstFree = none) : Effect slots (.outOfSpace p) slots
  | removed {p : Priv} {i : Nat} (hi : slots.list[i]? = some p) (hp : p.free = false) :
      Effect slots (.removed p) (slots.set i .zero)
  | displayed : Effect slots (.displayed (display slots)) slots
  | quiet {said : Said} (hquiet : said.Quiet) : Effect slots said slots

theorem effect_add {inp : List UInt8} {r : Result} (h : add slots inp = .ok r) :
    Effect slots r.said r.slots := by
  obtain ⟨⟨newPriv, inp'⟩, hread, h⟩ := of_bind_eq_ok h
  cases newPriv with
  | none =>
    cases h
    exact .quiet trivial
  | some newPriv =>
    have hnew := free_of_readPriv hread
    simp only at h
    split at h
    · rename_i hfull
      cases h
      exact .outOfSpace hfull
    · rename_i i hfirst
      cases h
      obtain ⟨hlt, hfree, -⟩ := List.findIdx?_eq_some_iff_getElem.mp hfirst
      exact .added (List.getElem?_eq_getElem hlt) hfree hnew

/-- `remove_` frees a slot of the name. -/
theorem removeLoop_eq_some {buf : List UInt8} {ps : List Priv} {i k : Nat} {inp rest : List UInt8}
    (h : removeLoop buf ps i inp = .ok (some k, rest)) :
    ∃ j p, k = i + j ∧ ps[j]? = some p ∧ p.name.text = buf := by
  induction ps generalizing i inp with
  | nil => cases h
  | cons q ps ih =>
    have hrest : ∀ {inp}, removeLoop buf ps (i + 1) inp = .ok (some k, rest) →
        ∃ j p, k = i + j ∧ (q :: ps)[j]? = some p ∧ p.name.text = buf := by
      intro inp h
      obtain ⟨j, p, rfl, hj, hp⟩ := ih h
      exact ⟨j + 1, p, by omega, hj, hp⟩
    unfold removeLoop at h
    split at h
    · rename_i hname
      split at h
      · cases h
      · split at h
        · cases h
        · split at h
          · exact hrest h
          · cases h
            exact ⟨0, q, rfl, rfl, hname.symm⟩
    · exact hrest h

theorem effect_remove {inp : List UInt8} {r : Result} (h : remove_ slots inp = .ok r) :
    Effect slots r.said r.slots := by
  unfold remove_ at h
  split at h
  · cases h
    exact .quiet trivial
  · rename_i buf inp' hbuf
    obtain ⟨⟨freed, inp''⟩, hloop, h⟩ := of_bind_eq_ok h
    cases freed with
    | none =>
      cases h
      exact .quiet trivial
    | some k =>
      cases h
      obtain ⟨j, p, rfl, hj, hp⟩ := removeLoop_eq_some hloop
      rw [Nat.zero_add]
      have hname : p.free = false := by
        rw [Priv.free, hp]
        exact List.isEmpty_eq_false_iff.mpr (text_ne_nil_of_processString hbuf)
      simp only [List.getD_eq_getElem?_getD, hj, Option.getD_some]
      exact .removed hj hname

theorem effect_perform {inp : List UInt8} {c : Nat} {r : Result}
    (h : perform slots inp c = .ok r) : Effect slots r.said r.slots := by
  unfold perform at h
  split at h
  · exact effect_add h
  · exact effect_remove h
  · unfold find at h
    split at h
    · cases h
      exact .quiet trivial
    · obtain ⟨⟨found, inp'⟩, -, h⟩ := of_bind_eq_ok h
      cases h
      exact .quiet trivial
  · cases h
    exact .displayed
  all_goals
    cases h
    exact .quiet trivial

/-- **One turn.** -/
theorem effect_next (h : b.next = .ok (.inr b')) :
    ∃ said, b'.said = said :: b.said ∧ Effect b.slots said b'.slots := by
  unfold Book.next at h
  split at h
  · cases h
  · obtain ⟨inp, -, h⟩ := of_bind_eq_ok h
    split at h
    · cases h
    · obtain ⟨r, hr, h⟩ := of_bind_eq_ok h
      split at h
      · cases h
      · cases h
        exact ⟨r.said, rfl, effect_perform hr⟩

/-! ## 3. Every run -/

/-- What has been said is so. -/
structure Inv (b : Book) : Prop where
  stored : (stored b.said).Perm (b.slots.list.filter Priv.occupied)
  reported : (reported b.said).Perm (AddressBook.stored b.said ++ refused b.said)

theorem inv_effect {said : Said} {slots' : Slots} {log : List Said}
    (h : Effect slots said slots')
    (hstored : (stored log).Perm (slots.list.filter Priv.occupied))
    (hreported : (reported log).Perm (stored log ++ refused log)) :
    (stored (said :: log)).Perm (slots'.list.filter Priv.occupied) ∧
      (reported (said :: log)).Perm (stored (said :: log) ++ refused (said :: log)) := by
  cases h with
  | added hi hq hp =>
    refine ⟨?_, hreported.cons _⟩
    refine (hstored.cons _).trans (filter_set_perm hi ?_ ?_).symm
    · rw [Priv.occupied, hq]
      rfl
    · rw [Priv.occupied, hp]
      rfl
  | outOfSpace hfull => exact ⟨hstored, (hreported.cons _).trans List.perm_middle.symm⟩
  | @removed p i hi hp =>
    have hocc : p.occupied = true := by
      rw [Priv.occupied, hp]
      rfl
    have hmem : p ∈ stored log :=
      hstored.mem_iff.mpr (List.mem_filter.mpr ⟨List.mem_of_getElem? hi, hocc⟩)
    constructor
    · have hperm := hstored.trans (filter_perm_set hi hocc (rfl : Priv.zero.occupied = false))
      have herase := hperm.erase p
      rwa [List.erase_cons_head] at herase
    · have herase := hreported.erase p
      rwa [List.erase_append_left _ hmem] at herase
  | displayed => exact ⟨hstored, hreported⟩
  | quiet hquiet =>
    cases said with
    | added | outOfSpace | removed | displayed => exact absurd hquiet id
    | _ => exact ⟨hstored, hreported⟩

theorem inv_next (hi : Inv b) (h : b.next = .ok (.inr b')) : Inv b' := by
  obtain ⟨said, hsaid, heffect⟩ := effect_next h
  obtain ⟨hstored, hreported⟩ := inv_effect heffect hi.stored hi.reported
  rw [← hsaid] at hstored hreported
  exact ⟨hstored, hreported⟩

theorem inv_start (inp : List UInt8) : Inv (start inp) := by
  refine ⟨?_, List.Perm.refl []⟩
  have hnone : (List.replicate MAX_PRIV Priv.zero).filter Priv.occupied = [] :=
    List.filter_eq_nil_iff.mpr fun p hp => by
      rw [List.eq_of_mem_replicate hp]
      exact Bool.false_ne_true
  show List.Perm [] ((List.replicate MAX_PRIV Priv.zero).filter Priv.occupied)
  rw [hnone]

theorem inv_reaches {inp : List UInt8} (h : Reaches (nextOf Book.next) (fun _ _ => True) (start inp) b) :
    Inv b :=
  h.invariant (inv_start inp) fun _ _ _ hi _ hnext => inv_next hi (nextOf_eq_some.mp hnext)

/-- In every state that the loop gets to. -/
theorem display_perm_iff {inp : List UInt8}
    (h : Reaches (nextOf Book.next) (fun _ _ => True) (start inp) b) :
    ((display b.slots).Perm (stored b.said) ↔ Packed b.slots) ∧
      ((display b.slots).Perm (reported b.said) ↔ Packed b.slots ∧ refused b.said = []) := by
  have hi := inv_reaches h
  have hstored : (display b.slots).Perm (stored b.said) ↔ Packed b.slots :=
    ⟨fun hperm => takeWhile_perm_filter_iff.mp (hperm.trans hi.stored),
      fun hpacked => (takeWhile_perm_filter_iff.mpr hpacked).trans hi.stored.symm⟩
  refine ⟨hstored, fun hperm => ?_, fun ⟨hpacked, hnone⟩ => ?_⟩
  · -- no more is shown than stored
    have hlen := (hperm.trans hi.reported).length_eq
    have hle : (display b.slots).length ≤ (b.slots.list.filter Priv.occupied).length :=
      length_takeWhile_le_filter
    rw [← hi.stored.length_eq] at hle
    rw [List.length_append] at hlen
    have hnone : refused b.said = [] := List.eq_nil_of_length_eq_zero (by omega)
    refine ⟨hstored.mp (hperm.trans ?_), hnone⟩
    have hsame := hi.reported
    rwa [hnone, List.append_nil] at hsame
  · refine (hstored.mpr hpacked).trans ?_
    have hsame := hi.reported.symm
    rwa [hnone, List.append_nil] at hsame

/-- What the next turn displays, if it does. -/
def Book.shows (b : Book) : Option (List Priv) :=
  match b.next with
  | .ok (.inr b') =>
    match b'.said with
    | .displayed customers :: _ => some customers
    | _ => none
  | _ => none

theorem shows_eq_some {customers : List Priv} (h : b.shows = some customers) :
    customers = display b.slots := by
  unfold Book.shows at h
  split at h
  · rename_i b' hnext
    split at h
    · rename_i hsaid
      cases h
      obtain ⟨said, hsaid', heffect⟩ := effect_next hnext
      cases (List.cons.inj (hsaid'.symm.trans hsaid)).1
      generalize b'.slots = slots' at heffect
      cases heffect with
      | displayed => rfl
      | quiet hquiet => exact absurd hquiet id
    · cases h
  · cases h

/-- **Each display shows the customers that are stored, each once and no others, exactly if the
    slots are packed; and those that were said to be added exactly if also none of them has been
    refused.** -/
theorem displayed_iff {inp : List UInt8} {customers : List Priv}
    (h : Reaches (nextOf Book.next) (fun _ _ => True) (start inp) b)
    (hshows : b.shows = some customers) :
    (customers.Perm (stored b.said) ↔ Packed b.slots) ∧
      (customers.Perm (reported b.said) ↔ Packed b.slots ∧ refused b.said = []) := by
  rw [shows_eq_some hshows]
  exact display_perm_iff h

/-! Two customers are added, `A` and `B`, and `A` is removed. -/

def customer (name : String) : List UInt8 :=
  ascii "1\n" ++ ascii name ++ ascii "\nM\nL\n12\nclerk\n30\n"

def addAB : List UInt8 := customer "A" ++ customer "B"

def removeA : List UInt8 := ascii "2\nA\ny\n"

def showAll : List UInt8 := ascii "4\n"

theorem reaches_of_turns {inp : List UInt8} {n : Nat}
    (h : run (nextOf Book.next) (List.replicate n ()) (start inp) = some b) :
    Reaches (nextOf Book.next) (fun _ _ => True) (start inp) b :=
  reaches_of_run (fun _ _ _ => trivial) .start h

theorem displayed_two :
    ∃ b customers, Reaches (nextOf Book.next) (fun _ _ => True) (start (addAB ++ showAll)) b ∧
      b.shows = some customers ∧
      ((customers.Perm (stored b.said) ↔ Packed b.slots) ∧
        (customers.Perm (reported b.said) ↔ Packed b.slots ∧ refused b.said = [])) := by
  have hrun : ((run (nextOf Book.next) (List.replicate 2 ()) (start (addAB ++ showAll))).bind
      Book.shows).isSome := by decide +kernel
  obtain ⟨customers, hcustomers⟩ := Option.isSome_iff_exists.mp hrun
  obtain ⟨b, hb, hshows⟩ := Option.bind_eq_some_iff.mp hcustomers
  have hreaches := reaches_of_turns hb
  exact ⟨b, customers, hreaches, hshows, displayed_iff hreaches hshows⟩

theorem displayed_nothing :
    ∃ b customers,
      Reaches (nextOf Book.next) (fun _ _ => True) (start (addAB ++ removeA ++ showAll)) b ∧
      b.shows = some customers ∧ ¬ customers.Perm (stored b.said) := by
  have hrun : (run (nextOf Book.next) (List.replicate 3 ())
      (start (addAB ++ removeA ++ showAll))).map
        (fun b => (b.shows, (stored b.said).length)) = some (some [], 1) := by decide +kernel
  obtain ⟨b, hb, hshows⟩ := Option.map_eq_some_iff.mp hrun
  obtain ⟨hnothing, hone⟩ := Prod.mk.inj hshows
  refine ⟨b, [], reaches_of_turns hb, hnothing, fun hperm => ?_⟩
  exact absurd (hperm.length_eq.trans hone) (by decide)

end AddressBook
end Labs
