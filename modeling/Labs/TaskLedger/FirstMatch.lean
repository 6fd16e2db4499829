import Labs.TaskLedger.Count

/-!
# The first match

`remove_by` and `find_by` decode the option and read the key with two copies of the same code,
and then walk over the list with two loops of their own. With `BY_ENTRY` and `BY_NUMBER` both
stop at the first entry whose bytes are those of the key, so on the same list and the same input
the one deletes what the other reports. The bytes behind the terminators are compared too, by
both alike.

The result holds of every list, whatever its counter says: the counter is lowered as an `int`,
and where it was the number of the entries it is so again.
-/

namespace Labs
namespace TaskLedger

open Lib

variable {L : Ledger} {xs : List (Addr × Priv)} {opt : Opt} {f : Field} {key : Priv}
  {inp rest : List UInt8}

/-- The field has the same bytes in both entries, those behind its terminator included. -/
def SameBytes (f : Field) (x y : Priv) : Prop :=
  ∀ j < f.size, x.bytes[f.offset + j]? = y.bytes[f.offset + j]?

theorem cmp_iff {x y : Priv} : cmp x y f = true ↔ SameBytes f x y := by
  have hbyte : ∀ (e : Priv) (j : Nat), (e.read f.offset f.size)[j]? =
      if j < f.size then e.bytes[f.offset + j]? else none := by
    intro e j
    rw [Block.read, List.getElem?_take, List.getElem?_drop]
  rw [cmp, beq_iff_eq]
  constructor
  · intro h j hj
    have hj' := congrArg (fun l : List UInt8 => l[j]?) h
    simpa only [hbyte, if_pos hj] using hj'
  · intro h
    refine List.ext_getElem? fun j => ?_
    rw [hbyte, hbyte]
    split
    · exact h j ‹_›
    · rfl

/-- `e` is the first entry of the list that matches, between `us` and `vs`. -/
structure IsFirst (hit : Priv → Bool) (xs us : List (Addr × Priv)) (e : Addr × Priv)
    (vs : List (Addr × Priv)) : Prop where
  split : xs = us ++ e :: vs
  before : ∀ d ∈ us, hit d.2 = false
  matched : hit e.2 = true

/-- There is no match, or there is a first one. -/
theorem first_cases (hit : Priv → Bool) (xs : List (Addr × Priv)) :
    (∀ e ∈ xs, hit e.2 = false) ∨ ∃ us e vs, IsFirst hit xs us e vs := by
  induction xs with
  | nil => exact .inl fun e he => absurd he List.not_mem_nil
  | cons d xs ih =>
    cases hd : hit d.2 with
    | true =>
      exact .inr ⟨[], d, xs, rfl, fun e he => absurd he List.not_mem_nil, hd⟩
    | false =>
      rcases ih with hno | ⟨us, e, vs, hsplit, hbefore, he⟩
      · exact .inl (List.forall_mem_cons.mpr ⟨hd, hno⟩)
      · refine .inr ⟨d :: us, e, vs, ?_, List.forall_mem_cons.mpr ⟨hd, hbefore⟩, he⟩
        rw [hsplit, List.cons_append]

theorem find?_none {hit : Priv → Bool} (h : ∀ e ∈ xs, hit e.2 = false) :
    (xs.map Prod.snd).find? hit = none := by
  refine List.find?_eq_none.mpr fun x hx => ?_
  obtain ⟨e, he, rfl⟩ := List.mem_map.mp hx
  simp [h e he]

theorem IsFirst.find? {hit : Priv → Bool} {us vs : List (Addr × Priv)} {e : Addr × Priv}
    (h : IsFirst hit xs us e vs) : (xs.map Prod.snd).find? hit = some e.2 := by
  rw [h.split, List.map_append, List.map_cons, List.find?_append, find?_none h.before,
    Option.none_or, List.find?_cons_of_pos h.matched]

/-- What `find_by` reports for a key of a unique field. -/
theorem findBy_of_key (hc : Chain L.heap L.head xs none) (hunique : opt.unique = true)
    (hf : opt.field = some f) (hkey : readKey opt f inp = .ok (OK, key, rest)) :
    findBy L opt inp = .ok (OK, ((xs.map Prod.snd).find? (cmp key · f)).toList, rest) := by
  have hloop := findLoop_spec true (cmp key · f) hc (Nat.lt_succ_of_le hc.length_le_brk)
  rw [findBy, hf, hunique]
  refine (bind_of_ok hkey _).trans ?_
  dsimp only
  rw [if_neg (by decide), hloop]
  rfl

/-- `remove_by` has taken the entry between `us` and `vs` out of the list, and out of the
    counter. -/
structure Deleted (L L' : Ledger) (xs us vs : List (Addr × Priv)) : Prop where
  chain : Chain L'.heap L'.head (us ++ vs) none
  total : L'.entryTotal = wrap32 (L.entryTotal - 1)
  counted : L.entryTotal = xs.length → (xs.length : Int) ≤ INT_MAX →
    L'.entryTotal = L.entryTotal - 1

/-- Either no entry matches and neither function does anything, or both stop at the first. -/
def StopAtFirst (L : Ledger) (xs : List (Addr × Priv)) (hit : Priv → Bool) (opt : Opt)
    (inp rest : List UInt8) : Prop :=
  ((∀ e ∈ xs, hit e.2 = false) ∧ findBy L opt inp = .ok (OK, [], rest) ∧
      removeBy L opt inp = .ok (OK, L, rest)) ∨
    ∃ us e vs L', IsFirst hit xs us e vs ∧ findBy L opt inp = .ok (OK, [e.2], rest) ∧
      removeBy L opt inp = .ok (OK, L', rest) ∧ Deleted L L' xs us vs

/-- **By a unique field, `remove_by` deletes the entry that `find_by` reports**, the first that
    matches, and no other; and it never looks at the node it has freed. -/
theorem unique_stop_at_first (hc : Chain L.heap L.head xs none) (hunique : opt.unique = true)
    (hf : opt.field = some f) (hkey : readKey opt f inp = .ok (OK, key, rest)) :
    StopAtFirst L xs (cmp key · f) opt inp rest := by
  have hfuel : xs.length < L.heap.brk + 1 := Nat.lt_succ_of_le hc.length_le_brk
  have hfind := findBy_of_key hc hunique hf hkey
  have hremove := removeBy_of_key (L := L) hf hkey
  rw [hunique] at hremove
  rcases first_cases (cmp key · f) xs with hno | ⟨us, ⟨a, x⟩, vs, hfirst⟩
  · rw [find?_none hno] at hfind
    rw [bind_of_ok (removeLoop_skip true hc hno hfuel)] at hremove
    exact .inl ⟨hno, hfind, hremove⟩
  · rw [hfirst.find?] at hfind
    have hlen : xs.length = (us ++ vs).length + 1 := by
      rw [hfirst.split]
      simp only [List.length_append, List.length_cons]
      omega
    have hus : us.length < L.heap.brk + 1 := by
      rw [hlen, List.length_append] at hfuel
      omega
    obtain ⟨L', hc', htotal, hrun⟩ := removeLoop_first (cmp key · f) (hfirst.split ▸ hc)
      hfirst.before hfirst.matched hus
    rw [bind_of_ok hrun] at hremove
    refine .inr ⟨us, (a, x), vs, L', hfirst, hfind, hremove, hc', htotal, fun hn hle => ?_⟩
    have hall : Holds L xs := ⟨hc, hn, hle⟩
    rw [(hall.of_chain hlen hc' rfl htotal).total, hn, hlen]
    omega

theorem readKey_number : readKey .BY_NUMBER .number [NEWLINE] = .ok (OK, .zero _, []) := by
  decide +kernel

/-- Two customers without a number: the first has the bytes of the key, and it is found and
    deleted. -/
theorem unique_stop_at_first_two :
    SameBytes .number (.zero _) (named 65) ∧
      findBy (twoCustomers (named 65) (named 66)) .BY_NUMBER [NEWLINE] = .ok (OK, [named 65], []) ∧
      ∃ L', removeBy (twoCustomers (named 65) (named 66)) .BY_NUMBER [NEWLINE] = .ok (OK, L', []) ∧
        Chain L'.heap L'.head [(0, named 66)] none ∧ L'.entryTotal = 1 := by
  have hsame : cmp (.zero _) (named 65) .number = true := by decide +kernel
  refine ⟨cmp_iff.mp hsame, ?_⟩
  rcases unique_stop_at_first (holds_twoCustomers (named 65) (named 66)).chain rfl rfl readKey_number
    with ⟨hno, -⟩ | ⟨us, e, vs, L', hfirst, hfind, hremove, hchain, -, hcounted⟩
  · cases hsame.symm.trans (hno _ List.mem_cons_self)
  · have hsplit := hfirst.split
    cases us with
    | nil =>
      obtain ⟨rfl, rfl⟩ := List.cons_eq_cons.mp hsplit
      exact ⟨hfind, L', hremove, hchain, hcounted rfl (by decide)⟩
    | cons d us =>
      obtain ⟨rfl, -⟩ := List.cons_eq_cons.mp hsplit
      cases hsame.symm.trans (hfirst.before _ List.mem_cons_self)

end TaskLedger
end Labs
