import Labs.TaskLedger.Funcs
import Mathlib.Data.List.TakeWhile

/-!
# Deleting by a field

`Holds L xs` ties the ledger to a list: the nodes reachable from `head` are exactly `xs`, all
live, and `entry_total` is their number. The loop of `remove_by` is followed from the front. As
long as the first entry matches it is unlinked from `head` and the loop starts over with `Holds`
of the rest (`removeLoop_pop`). Once an entry has been kept, `prevNode` is the node before
`curNode`, and the invariant is the chain cut between the two:

* with no match ahead the loop runs to the end and changes nothing (`removeLoop_skip`);
* the first match ahead is unlinked and freed, and then `curNode->next` is read from it
  (`removeLoop_crash`).

So deletion by a field that is not unique does what it says exactly where the matches are a
prefix of the list. With `BY_ENTRY` and `BY_NUMBER` the loop stops at the first match, before it
reads the freed node, and deletes it wherever it is (`removeLoop_unique`).

## What survives an unlinking

After a node in the middle has been unlinked, the list is right and the loop is lost: `curNode`
points to the freed node and its `next` is read for the next turn. The heap has freed nodes in it
for that reason. A read of one is a stop of its own (`useAfterFree`), not a value, so no result is
ever drawn from it.

The loop is described by what has been kept, up to `prevNode`, and by what is ahead. A match ahead
is at the head, where the loop starts again and all is well, or behind a kept entry, where the loop
ends. So a list is deleted from as it should be exactly if its matches are a prefix, and the
induction for this direction and for the other is along the same list.

Whether the matching entries are one or many makes no difference to the loop with a unique field: it
leaves with the first one, wherever that stands, before it reads from the node.
-/

namespace Labs
namespace TaskLedger

open Lib

structure Holds (L : Ledger) (xs : List (Addr × Priv)) : Prop where
  chain : Chain L.heap L.head xs none
  total : L.entryTotal = xs.length
  fits : (xs.length : Int) ≤ INT_MAX

/-- No entry that matches stands behind one that does not. -/
def MatchesFirst (hit : Priv → Bool) (xs : List (Addr × Priv)) : Prop :=
  ∀ e ∈ xs.dropWhile (fun e => hit e.2), hit e.2 = false
deriving Decidable

/-- The entries that do not match, in their order. -/
def kept (hit : Priv → Bool) (xs : List (Addr × Priv)) : List (Addr × Priv) :=
  xs.filter fun e => !hit e.2

variable {hit : Priv → Bool} {L : Ledger} {xs us ys : List (Addr × Priv)} {a b : Addr}
  {x y : Priv} {fuel : Nat} {prevNode : Link}

/-! ## 1. The counter -/

theorem wrap32_pred {n : Nat} (h : ((n + 1 : Nat) : Int) ≤ INT_MAX) :
    wrap32 (((n + 1 : Nat) : Int) - 1) = n := by
  rw [wrap32_of_inRange]
  · omega
  · constructor
    · show (-2147483648 : Int) ≤ _
      omega
    · exact Int.le_trans (by omega) h

theorem Holds.of_chain {L' : Ledger} {n : Nat} (h : Holds L xs) (hlen : xs.length = n + 1)
    (hc : Chain L'.heap L'.head ys none) (hys : ys.length = n)
    (ht : L'.entryTotal = wrap32 (L.entryTotal - 1)) : Holds L' ys := by
  have hfits := h.fits
  rw [hlen] at hfits
  refine ⟨hc, ?_, ?_⟩
  · rw [ht, h.total, hlen, wrap32_pred hfits, hys]
  · rw [hys]
    exact Int.le_trans (by omega) hfits

/-! ## 2. One pass of the loop -/

/-- A match at the head is unlinked there, and the rest of the list is left. -/
theorem removeLoop_pop (unique : Bool) (fuel : Nat) (prevNode : Link)
    (hc : Chain L.heap L.head ((a, x) :: xs) none) (hx : hit x = true) :
    ∃ L', Chain L'.heap L'.head xs none ∧ L'.entryTotal = wrap32 (L.entryTotal - 1) ∧
      removeLoop unique hit (fuel + 1) L L.head prevNode =
        if unique then .ok L' else removeLoop unique hit fuel L' L'.head prevNode := by
  obtain ⟨next, heap, ha, hf, -, hrest⟩ := hc.free_head
  have hhead : L.head = some a := hc.1
  refine ⟨⟨heap, next, wrap32 (L.entryTotal - 1)⟩, hrest, rfl, ?_⟩
  rw [hhead, removeLoop, bind_of_ok (Heap.load_live ha), if_pos hx, if_pos hhead.symm,
    bind_of_ok hf]
  rfl

/-- An entry that does not match is passed. -/
theorem removeLoop_keep (unique : Bool) (fuel : Nat) (prevNode : Link)
    (hc : Chain L.heap (some a) ((a, x) :: xs) none) (hx : hit x = false) :
    ∃ next, Chain L.heap next xs none ∧
      removeLoop unique hit (fuel + 1) L (some a) prevNode =
        removeLoop unique hit fuel L next (some a) := by
  obtain ⟨-, next, ha, hrest⟩ := hc
  refine ⟨next, hrest, ?_⟩
  rw [removeLoop, bind_of_ok (Heap.load_live ha), if_neg (by simp [hx])]

/-- A match behind a kept entry is unlinked from it and freed; where the loop goes on, the next
    access is to the freed node. -/
theorem removeLoop_unlink (unique : Bool) (fuel : Nat)
    (hc : Chain L.heap L.head (us ++ (b, y) :: (a, x) :: xs) none) (hx : hit x = true) :
    ∃ L', Chain L'.heap L'.head (us ++ (b, y) :: xs) none ∧
      L'.entryTotal = wrap32 (L.entryTotal - 1) ∧
      removeLoop unique hit (fuel + 1) L (some a) (some b) =
        if unique then .ok L' else .error .useAfterFree := by
  obtain ⟨next, h₁, h₂, ha, hs, hf, -, hdead, -, hrest⟩ := hc.unlink
  have hne : some a ≠ L.head := by
    have hsplit : us ++ (b, y) :: (a, x) :: xs = (us ++ [(b, y)]) ++ (a, x) :: xs := by simp
    exact Chain.head_ne (hsplit ▸ hc) (by simp)
  refine ⟨⟨h₂, L.head, wrap32 (L.entryTotal - 1)⟩, hrest, rfl, ?_⟩
  rw [removeLoop, bind_of_ok (Heap.load_live ha), if_pos hx, if_neg hne, bind_of_ok hs,
    bind_of_ok hf]
  cases unique with
  | true => rfl
  | false => exact bind_of_error (Heap.load_freed hdead) _

/-! ## 3. The whole loop -/

theorem removeLoop_skip (unique : Bool) {curNode : Link}
    (hc : Chain L.heap curNode xs none) (hxs : ∀ e ∈ xs, hit e.2 = false)
    (hfuel : xs.length < fuel) : removeLoop unique hit fuel L curNode prevNode = .ok L := by
  induction xs generalizing fuel curNode prevNode with
  | nil =>
    obtain ⟨fuel, rfl⟩ := Nat.exists_eq_add_of_lt hfuel
    have hnone : curNode = none := hc
    rw [hnone, removeLoop]
  | cons e xs ih =>
    obtain ⟨a, x⟩ := e
    cases fuel with
    | zero => exact absurd hfuel (Nat.not_lt_zero _)
    | succ fuel =>
      have hcur : curNode = some a := hc.1
      subst hcur
      obtain ⟨next, hrest, hstep⟩ := removeLoop_keep unique fuel prevNode hc
        (hxs _ List.mem_cons_self)
      rw [hstep]
      exact ih hrest (fun e he => hxs e (List.mem_cons_of_mem _ he)) (Nat.lt_of_succ_lt_succ hfuel)

/-- Behind a kept entry the loop does not survive a match. -/
theorem removeLoop_crash {curNode : Link} (us : List (Addr × Priv))
    (h : Chain L.heap L.head (us ++ (b, y) :: ys) none) (hc : Chain L.heap curNode ys none)
    (hys : ∃ e ∈ ys, hit e.2 = true) (hfuel : ys.length < fuel) :
    removeLoop false hit fuel L curNode (some b) = .error .useAfterFree := by
  induction ys generalizing fuel curNode us b y with
  | nil => exact absurd hys (by simp)
  | cons e ys ih =>
    obtain ⟨a, x⟩ := e
    cases fuel with
    | zero => exact absurd hfuel (Nat.not_lt_zero _)
    | succ fuel =>
      have hcur : curNode = some a := hc.1
      subst hcur
      cases hx : hit x with
      | true =>
        obtain ⟨L', -, -, hstep⟩ := removeLoop_unlink false fuel h hx
        rw [hstep, if_neg (by simp)]
      | false =>
        obtain ⟨next, hrest, hstep⟩ := removeLoop_keep false fuel (some b) hc hx
        rw [hstep]
        refine ih (us ++ [(b, y)]) (by simpa using h) hrest ?_ (Nat.lt_of_succ_lt_succ hfuel)
        obtain ⟨e, he, hhit⟩ := hys
        rcases List.mem_cons.mp he with rfl | he
        · rw [hx] at hhit
          exact absurd hhit Bool.false_ne_true
        · exact ⟨e, he, hhit⟩

theorem kept_eq_self (h : ∀ e ∈ xs, hit e.2 = false) : kept hit xs = xs :=
  List.filter_eq_self.mpr fun e he => by simp [h e he]

/-- The loop deletes what it should when the matches come first … -/
theorem removeLoop_matchesFirst (prevNode : Link) (hc : Chain L.heap L.head xs none)
    (hm : MatchesFirst hit xs) (hfuel : xs.length < fuel) :
    ∃ L', (Holds L xs → Holds L' (kept hit xs)) ∧
      removeLoop false hit fuel L L.head prevNode = .ok L' := by
  induction xs generalizing fuel L with
  | nil => exact ⟨L, id, removeLoop_skip false hc (by simp) hfuel⟩
  | cons e xs ih =>
    obtain ⟨a, x⟩ := e
    cases fuel with
    | zero => exact absurd hfuel (Nat.not_lt_zero _)
    | succ fuel =>
      cases hx : hit x with
      | true =>
        obtain ⟨L', hc', ht, hstep⟩ := removeLoop_pop false fuel prevNode hc hx
        have hm' : MatchesFirst hit xs := by simpa [MatchesFirst, List.dropWhile, hx] using hm
        obtain ⟨L'', hL'', hrun⟩ := ih hc' hm' (Nat.lt_of_succ_lt_succ hfuel)
        refine ⟨L'', fun h => ?_, hstep.trans hrun⟩
        rw [kept, List.filter_cons_of_neg (by simp [hx])]
        exact hL'' (h.of_chain rfl hc' rfl ht)
      | false =>
        have hnone : ∀ e ∈ (a, x) :: xs, hit e.2 = false := by
          simpa [MatchesFirst, List.dropWhile, hx] using hm
        rw [kept_eq_self hnone]
        exact ⟨L, id, removeLoop_skip false hc hnone hfuel⟩

/-- … and reads a freed node when they do not. -/
theorem removeLoop_not_matchesFirst (prevNode : Link) (hc : Chain L.heap L.head xs none)
    (hm : ¬ MatchesFirst hit xs) (hfuel : xs.length < fuel) :
    removeLoop false hit fuel L L.head prevNode = .error .useAfterFree := by
  induction xs generalizing fuel L with
  | nil => exact absurd (by simp [MatchesFirst]) hm
  | cons e xs ih =>
    obtain ⟨a, x⟩ := e
    cases fuel with
    | zero => exact absurd hfuel (Nat.not_lt_zero _)
    | succ fuel =>
      cases hx : hit x with
      | true =>
        obtain ⟨L', hc', -, hstep⟩ := removeLoop_pop false fuel prevNode hc hx
        refine hstep.trans (ih hc' (fun hm' => hm ?_) (Nat.lt_of_succ_lt_succ hfuel))
        simpa [MatchesFirst, List.dropWhile, hx] using hm'
      | false =>
        have hhead : L.head = some a := hc.1
        obtain ⟨next, hrest, hstep⟩ := removeLoop_keep false fuel prevNode (hhead ▸ hc) hx
        have hex : ∃ e ∈ xs, hit e.2 = true := by
          by_contra hno
          refine hm fun e he => ?_
          rw [List.dropWhile_cons_of_neg (by simp [hx])] at he
          rcases List.mem_cons.mp he with rfl | he
          · exact hx
          · cases hh : hit e.2 with
            | true => exact absurd ⟨e, he, hh⟩ hno
            | false => rfl
        rw [hhead, hstep]
        exact removeLoop_crash [] hc hrest hex (Nat.lt_of_succ_lt_succ hfuel)

/-- With a unique field the first match behind a kept entry is deleted, and the loop never meets
    the freed node. `ws` is what lies in front of the kept one. -/
theorem removeLoop_first_behind {curNode : Link} (ws : List (Addr × Priv))
    (hc : Chain L.heap L.head (ws ++ (b, y) :: (us ++ (a, x) :: ys)) none)
    (hcur : Chain L.heap curNode (us ++ (a, x) :: ys) none) (hus : ∀ e ∈ us, hit e.2 = false)
    (hx : hit x = true) (hfuel : us.length < fuel) :
    ∃ L', Chain L'.heap L'.head (ws ++ (b, y) :: (us ++ ys)) none ∧
      L'.entryTotal = wrap32 (L.entryTotal - 1) ∧
      removeLoop true hit fuel L curNode (some b) = .ok L' := by
  induction us generalizing fuel curNode ws b y with
  | nil =>
    cases fuel with
    | zero => exact absurd hfuel (Nat.not_lt_zero _)
    | succ fuel =>
      have hcur' : curNode = some a := hcur.1
      subst hcur'
      exact removeLoop_unlink true fuel hc hx
  | cons e us ih =>
    obtain ⟨c, z⟩ := e
    cases fuel with
    | zero => exact absurd hfuel (Nat.not_lt_zero _)
    | succ fuel =>
      have hcur' : curNode = some c := hcur.1
      subst hcur'
      obtain ⟨hz, hus⟩ := List.forall_mem_cons.mp hus
      obtain ⟨next, hrest, hstep⟩ := removeLoop_keep true fuel (some b) hcur hz
      obtain ⟨L', hc', ht, hrun⟩ := ih (ws ++ [(b, y)]) (by simpa using hc) hrest hus
        (Nat.lt_of_succ_lt_succ hfuel)
      exact ⟨L', by simpa using hc', ht, hstep.trans hrun⟩

theorem removeLoop_first (hit : Priv → Bool) (hc : Chain L.heap L.head (us ++ (a, x) :: ys) none)
    (hus : ∀ e ∈ us, hit e.2 = false) (hx : hit x = true) (hfuel : us.length < fuel) :
    ∃ L', Chain L'.heap L'.head (us ++ ys) none ∧ L'.entryTotal = wrap32 (L.entryTotal - 1) ∧
      removeLoop true hit fuel L L.head none = .ok L' := by
  cases fuel with
  | zero => exact absurd hfuel (Nat.not_lt_zero _)
  | succ fuel =>
    cases us with
    | nil => exact removeLoop_pop true fuel none hc hx
    | cons e us =>
      obtain ⟨c, z⟩ := e
      have hhead : L.head = some c := hc.1
      obtain ⟨hz, hus⟩ := List.forall_mem_cons.mp hus
      obtain ⟨next, hrest, hstep⟩ := removeLoop_keep true fuel none (hhead ▸ hc) hz
      obtain ⟨L', hc', ht, hrun⟩ := removeLoop_first_behind [] hc hrest hus hx
        (Nat.lt_of_succ_lt_succ hfuel)
      exact ⟨L', hc', ht, by rw [hhead, hstep, hrun]⟩

theorem removeLoop_unique (hit : Priv → Bool) (hc : Chain L.heap L.head xs none)
    (hfuel : xs.length < fuel) :
    ∃ L', (Holds L xs → Holds L' (xs.eraseP fun e => hit e.2)) ∧
      removeLoop true hit fuel L L.head none = .ok L' := by
  by_cases hno : ∀ e ∈ xs, hit e.2 = false
  · refine ⟨L, fun h => ?_, removeLoop_skip true hc hno hfuel⟩
    rwa [List.eraseP_of_forall_not fun e he => by simp [hno e he]]
  · obtain ⟨e, he, hhit⟩ : ∃ e ∈ xs, hit e.2 = true := by simpa using hno
    obtain ⟨⟨a, x⟩, us, ys, hus, hx, rfl, herase⟩ :=
      List.exists_of_eraseP (p := fun e : Addr × Priv => hit e.2) he hhit
    have hlen : (us ++ (a, x) :: ys).length = (us ++ ys).length + 1 := by
      simp only [List.length_append, List.length_cons]
      omega
    have hus' : us.length < fuel := by
      rw [hlen, List.length_append] at hfuel
      omega
    obtain ⟨L', hc', ht, hrun⟩ := removeLoop_first hit hc
      (fun e he => by simpa using hus e he) hx hus'
    rw [herase]
    exact ⟨L', fun h => h.of_chain hlen hc' rfl ht, hrun⟩

/-! ## 4. `remove_by` -/

/-- The option's field is compared on every entry, not up to the first match. -/
def NonUnique (opt : Opt) : Prop := opt.field ≠ none ∧ opt.unique = false
deriving Decidable

/-- What the deletion by a field is for: where it returns `OK`, exactly the entries that do not
    match the key are left, in their order, live and counted; and it never touches a freed
    node, a `NULL` or memory outside the entry. -/
def Filters (L : Ledger) (xs : List (Addr × Priv)) (opt : Opt) (inp : List UInt8) : Prop :=
  Ends (removeBy L opt inp) (· = .hang) fun (r, L', _) => r = OK →
    ∃ f key rest, opt.field = some f ∧ readKey opt f inp = .ok (OK, key, rest) ∧
      Holds L' (kept (cmp key · f) xs)

/-- With `BY_ENTRY` the key is a whole entry, and the lines typed for it fit into it. -/
def KeyFits (opt : Opt) (inp : List UInt8) : Prop := opt = .BY_ENTRY → EntryFits inp

theorem keyFits_of_nonUnique {opt : Opt} (hopt : NonUnique opt) (inp : List UInt8) :
    KeyFits opt inp := by
  intro h
  rw [h] at hopt
  exact absurd hopt.2 (by decide)

theorem readKey_ends {opt : Opt} {f : Field} {inp : List UInt8} (hf : opt.field = some f)
    (hfit : KeyFits opt inp) :
    Ends (readKey opt f inp) (· = .hang) fun (r, _, _) => r = OK ∨ r = ERR := by
  cases opt with
  | other => exact absurd hf (by simp [Opt.field])
  | BY_ENTRY => exact processEntry_ends (hfit rfl)
  | BY_AGE =>
    cases hf
    have hin : ParamFits Field.age.offset Field.age.size .INT inp := by
      show 288 + 4 ≤ sizeofPriv
      decide
    exact processParam_ends hin
  | _ =>
    cases hf
    exact processParam_ends (fgets_fits (by decide) (by decide))

theorem removeBy_of_key {opt : Opt} {f : Field} {key : Priv} {inp rest : List UInt8}
    (hf : opt.field = some f) (hkey : readKey opt f inp = .ok (OK, key, rest)) :
    removeBy L opt inp = (do
      let L ← removeLoop opt.unique (cmp key · f) (L.heap.brk + 1) L L.head none
      return (OK, L, rest)) := by
  rw [removeBy, hf]
  exact bind_of_ok hkey _

theorem removeBy_of_stop {opt : Opt} {f : Field} {s : Stop} {inp : List UInt8}
    (hf : opt.field = some f) (hkey : readKey opt f inp = .error s) :
    removeBy L opt inp = .error s := by
  rw [removeBy, hf]
  exact bind_of_error hkey _

theorem removeBy_of_err {opt : Opt} {f : Field} {key : Priv} {inp rest : List UInt8}
    (hf : opt.field = some f) (hkey : readKey opt f inp = .ok (ERR, key, rest)) :
    removeBy L opt inp = .ok (ERR, L, rest) := by
  rw [removeBy, hf]
  exact bind_of_ok hkey _

/-- **Deletion by a field that is not unique filters the list exactly when no match stands
    behind another entry**, or no key is read. -/
theorem remove_by_filters_iff (h : Holds L xs) (opt : Opt) (hopt : NonUnique opt)
    (inp : List UInt8) :
    Filters L xs opt inp ↔
      ∀ f key rest, opt.field = some f → readKey opt f inp = .ok (OK, key, rest) →
        MatchesFirst (cmp key · f) xs := by
  have hfuel : xs.length < L.heap.brk + 1 := Nat.lt_succ_of_le h.chain.length_le_brk
  constructor
  · intro hfil f key rest hf hkey
    by_contra hm
    have hcrash := removeLoop_not_matchesFirst none h.chain hm hfuel
    rw [Filters, removeBy_of_key hf hkey, hopt.2, bind_of_error hcrash] at hfil
    exact absurd hfil (by simp [Ends])
  · intro hcond
    cases hf : opt.field with
    | none => exact absurd hf hopt.1
    | some f =>
      cases hread : readKey opt f inp with
      | error s =>
        have hends := readKey_ends hf (keyFits_of_nonUnique hopt inp)
        rw [hread] at hends
        rw [Filters, removeBy_of_stop hf hread]
        exact hends
      | ok r =>
        obtain ⟨r, key, rest⟩ := r
        have hr : r = OK ∨ r = ERR :=
          (readKey_ends hf (keyFits_of_nonUnique hopt inp)).of_eq_ok hread
        rcases hr with rfl | rfl
        · obtain ⟨L', hL', hrun⟩ := removeLoop_matchesFirst none h.chain
            (hcond f key rest hf hread) hfuel
          rw [Filters, removeBy_of_key hf hread, hopt.2, bind_of_ok hrun]
          exact fun _ => ⟨f, key, rest, hf, hread, hL' h⟩
        · rw [Filters, removeBy_of_err hf hread]
          exact fun hr => absurd hr (by decide)

/-! ## 5. A match behind another entry

The customers `B` and `A`, in this order, and the key `A`. -/

/-- A customer with a name of one letter. -/
def named (c : UInt8) : Priv := ⟨c :: List.replicate 291 NUL, by
  rw [List.length_cons, List.length_replicate]
  rfl⟩

/-- The ledger after adding `y` and then `x` at the beginning. -/
def twoCustomers (x y : Priv) : Ledger := insertBegin (insertBegin (initObj 0) y) x

theorem holds_twoCustomers (x y : Priv) : Holds (twoCustomers x y) [(1, x), (0, y)] :=
  ⟨⟨rfl, some 0, rfl, rfl, none, rfl, rfl⟩, rfl, show (2 : Int) ≤ INT_MAX by decide⟩

theorem readKey_A : readKey .BY_NAME .name [65, NEWLINE] = .ok (OK, named 65, []) := by
  decide +kernel

theorem remove_by_filters_iff_found :
    Holds (twoCustomers (named 65) (named 66)) [(1, named 65), (0, named 66)] ∧
      NonUnique .BY_NAME ∧
      Filters (twoCustomers (named 65) (named 66)) [(1, named 65), (0, named 66)] .BY_NAME
        [65, NEWLINE] := by
  have hopt : NonUnique .BY_NAME := by decide
  refine ⟨holds_twoCustomers _ _, hopt, ?_⟩
  refine (remove_by_filters_iff (holds_twoCustomers _ _) .BY_NAME hopt _).mpr ?_
  intro f key rest hf hkey
  cases hf
  cases readKey_A.symm.trans hkey
  decide +kernel

theorem remove_by_reads_freed :
    Holds (twoCustomers (named 66) (named 65)) [(1, named 66), (0, named 65)] ∧
      NonUnique .BY_NAME ∧
      ¬ Filters (twoCustomers (named 66) (named 65)) [(1, named 66), (0, named 65)] .BY_NAME
        [65, NEWLINE] := by
  have hopt : NonUnique .BY_NAME := by decide
  refine ⟨holds_twoCustomers _ _, hopt, fun hfil => ?_⟩
  have hm : ¬ MatchesFirst (cmp (named 65) · .name) [(1, named 66), (0, named 65)] := by
    decide +kernel
  have hfuel : 2 < (twoCustomers (named 66) (named 65)).heap.brk + 1 := by decide
  rw [Filters, removeBy_of_key rfl readKey_A, hopt.2,
    bind_of_error (removeLoop_not_matchesFirst none (holds_twoCustomers _ _).chain hm hfuel)] at hfil
  exact absurd hfil (by simp [Ends])

end TaskLedger
end Labs
