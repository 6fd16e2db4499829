import Labs.TaskLedger.Remove

/-!
# Where `add` puts a new entry

The walks of `add` trust `entry_total`: the one to the middle takes `entry_total / 2` steps
without looking at `next`, the one to the end starts at `head` without looking at it. On a ledger
that `Holds` its list both arrive (`walk_spec`, `lastNode_spec`), and the new entry stands at
`position` in the list (`insert_grown`). That is the index the caller asked for, `indexOf`, but
in the short lists: `add_at_index_iff`.

## What a walk may rely on

The heap says nothing about how long a list is. A walk of `n` steps that never looks for `NULL`
arrives if there are `n` nodes, and reads a `NULL` pointer otherwise. `Holds` says that the counter
is the length; under it the walks are total, and the insertions are three cases of one statement:
the chain is cut behind the node where the walk ends, and the new node is linked in there (`Grown`).
Where the counter is not the length is the subject of `Count` and of `Inside`.

## Where the guards are narrow

`position` is what the code does, `indexOf` what the name of the position says. They differ for two
short lists only (`Short`), and there by one place. A difference in the place is not always a
difference in the list: a new entry that equals the first one may stand in front of it or behind it
(`insertIdx_zero_eq_one`). The result has this as a disjunct, since it is an equivalence about
entries and not about nodes.

A call that obtains no entry is followed too, up to the code it returns. `add` returns nothing but
`OK` or `ERR`, so what is not `OK` has left the ledger as it was.
-/

namespace Labs
namespace TaskLedger

open Lib

/-- The index of the new entry in a list of `n` others. -/
def position (n : Nat) : Pos → Nat
  | .MIDDLE => if n > 2 then n / 2 else 0
  | .END => if n > 1 then n else 0
  | .BEGIN | .other => 0

variable {L : Ledger} {xs us vs : List (Addr × Priv)} {b : Addr} {y e : Priv}

/-! ## 1. The walks, and what they insert -/

/-- The walk ends behind the first `i` nodes, with `prevNode` at the last of them. -/
theorem walk_spec {h : Heap Priv} : ∀ {us : List (Addr × Priv)} {p : Link} (prevNode : Link),
    Chain h p (us ++ (b, y) :: vs) none →
      ∃ q, walk h (us.length + 1) p prevNode = .ok (q, some b) ∧ Chain h q vs none
  | [], p, prevNode, hc => by
    obtain ⟨hp, next, hb, hrest⟩ := hc
    refine ⟨next, ?_, hrest⟩
    rw [hp]
    exact bind_of_ok (Heap.load_live hb) _
  | (a, x) :: us, p, prevNode, hc => by
    obtain ⟨hp, next, ha, hrest⟩ := hc
    obtain ⟨q, hw, hq⟩ := walk_spec p hrest
    refine ⟨q, ?_, hq⟩
    subst hp
    exact (bind_of_ok (Heap.load_live ha) _).trans hw

theorem lastNode_spec {h : Heap Priv} {fuel : Nat} {p : Link}
    (hc : Chain h p (us ++ [(b, y)]) none) (hfuel : us.length < fuel) :
    lastNode h fuel p = .ok (some b) := by
  induction us generalizing fuel p with
  | nil =>
    cases fuel with
    | zero => exact absurd hfuel (Nat.not_lt_zero _)
    | succ fuel =>
      obtain ⟨hp, next, hb, hnext⟩ := hc
      have hnone : next = none := hnext
      subst hp hnone
      exact bind_of_ok (Heap.load_live hb) _
  | cons c us ih =>
    obtain ⟨a, x⟩ := c
    cases fuel with
    | zero => exact absurd hfuel (Nat.not_lt_zero _)
    | succ fuel =>
      obtain ⟨hp, next, ha, hrest⟩ := hc
      subst hp
      refine (bind_of_ok (Heap.load_live ha) _).trans ?_
      have hlast := ih hrest (Nat.lt_of_succ_lt_succ hfuel)
      cases next with
      | none =>
        -- a node follows, so this `next` is not `NULL`
        cases us with
        | nil => exact absurd hrest.1 (by simp)
        | cons d us => exact absurd hrest.1 (by simp)
      | some c => exact hlast

/-- The list is `ys`, and the counter has gone up. -/
structure Grown (L L' : Ledger) (ys : List (Addr × Priv)) : Prop where
  chain : Chain L'.heap L'.head ys none
  total : L'.entryTotal = wrap32 (L.entryTotal + 1)

theorem Holds.of_grown {L' : Ledger} {ys : List (Addr × Priv)} (h : Holds L xs)
    (hlt : (xs.length : Int) < INT_MAX) (hg : Grown L L' ys) (hys : ys.length = xs.length + 1) :
    Holds L' ys := by
  have hin : InRange32 ((xs.length : Int) + 1) := by
    constructor
    · show (-2147483648 : Int) ≤ _
      omega
    · exact hlt
  refine ⟨hg.chain, ?_, ?_⟩
  · rw [hg.total, h.total, wrap32_of_inRange hin, hys]
    rfl
  · rw [hys]
    exact hlt

theorem insertBegin_grown (hc : Chain L.heap L.head xs none) :
    Grown L (insertBegin L e) ((L.heap.brk, e) :: xs) :=
  ⟨⟨rfl, L.head, Function.update_self .., hc.alloc _⟩, rfl⟩

theorem insertBegin_holds (h : Holds L xs) (hlt : (xs.length : Int) < INT_MAX) :
    Holds (insertBegin L e) ((L.heap.brk, e) :: xs) :=
  h.of_grown hlt (insertBegin_grown h.chain) rfl

/-- `us` is what the walk passes, `(b, y)` the last node it passes. -/
theorem insertMiddle_grown (h : Holds L (us ++ (b, y) :: vs))
    (hmid : (L.entryTotal / 2).toNat = us.length + 1) :
    ∃ L', insertMiddle L e = .ok L' ∧ Grown L L' (us ++ (b, y) :: (L.heap.brk, e) :: vs) := by
  obtain ⟨q, hw, hq⟩ := walk_spec L.head h.chain
  obtain ⟨heap, hset, hc⟩ := h.chain.link (e := e) hq
  refine ⟨⟨heap, L.head, wrap32 (L.entryTotal + 1)⟩, ?_, hc, rfl⟩
  rw [insertMiddle, hmid, bind_of_ok hw]
  exact bind_of_ok hset _

theorem insertEnd_grown (h : Holds L (us ++ [(b, y)])) :
    ∃ L', insertEnd L e = .ok L' ∧ Grown L L' (us ++ [(b, y), (L.heap.brk, e)]) := by
  have hfuel : us.length < L.heap.brk + 1 := by
    have := h.chain.length_le_brk
    rw [List.length_append] at this
    omega
  obtain ⟨heap, hset, hc⟩ := h.chain.link (e := e) (q := none) rfl
  refine ⟨⟨heap, L.head, wrap32 (L.entryTotal + 1)⟩, ?_, hc, rfl⟩
  rw [insertEnd, bind_of_ok (lastNode_spec h.chain hfuel)]
  exact bind_of_ok hset _

/-- A list of more than `i` entries, cut behind the entry at `i`. -/
theorem cut_behind (xs : List (Addr × Priv)) {i : Nat} (hi : i < xs.length) :
    ∃ us b y vs, xs = us ++ (b, y) :: vs ∧ us.length = i := by
  refine ⟨xs.take i, xs[i].1, xs[i].2, xs.drop (i + 1), ?_, ?_⟩
  · show xs = xs.take i ++ xs[i] :: xs.drop (i + 1)
    rw [← List.drop_eq_getElem_cons hi, List.take_append_drop]
  · rw [List.length_take]
    exact Nat.min_eq_left (Nat.le_of_lt hi)

theorem insertIdx_behind (us vs : List (Addr × Priv)) (c d : Addr × Priv) :
    (us ++ c :: vs).insertIdx (us.length + 1) d = us ++ c :: d :: vs := by
  induction us with
  | nil => rfl
  | cons u us ih => exact congrArg (u :: ·) ih

/-- **`insert` puts the new entry where `position` says.** -/
theorem insert_grown (h : Holds L xs) (e : Priv) (pos : Pos) :
    ∃ L', insert L e pos = .ok L' ∧
      Grown L L' (xs.insertIdx (position xs.length pos) (L.heap.brk, e)) := by
  have hbegin : ∃ L', (.ok (insertBegin L e) : Except Stop Ledger) = .ok L' ∧
      Grown L L' (xs.insertIdx 0 (L.heap.brk, e)) := ⟨_, rfl, insertBegin_grown h.chain⟩
  cases pos with
  | BEGIN => exact hbegin
  | other => exact hbegin
  | MIDDLE =>
    rw [insert, position, h.total]
    by_cases hn : 2 < xs.length
    · rw [if_pos (by exact_mod_cast hn), if_pos hn]
      obtain ⟨us, b, y, vs, rfl, hus⟩ := cut_behind xs (i := xs.length / 2 - 1) (by omega)
      have hmid : (us ++ (b, y) :: vs).length / 2 = us.length + 1 := by omega
      rw [hmid, insertIdx_behind]
      refine insertMiddle_grown h ?_
      rw [h.total, ← hmid]
      omega
    · rw [if_neg (by omega), if_neg hn]
      exact hbegin
  | END =>
    rw [insert, position, h.total]
    by_cases hn : 1 < xs.length
    · rw [if_pos (by exact_mod_cast hn), if_pos hn]
      obtain ⟨us, b, y, vs, rfl, hus⟩ := cut_behind xs (i := xs.length - 1) (by omega)
      have hvs : vs = [] := by
        rw [List.length_append, List.length_cons] at hus
        exact List.length_eq_zero_iff.mp (by omega)
      subst hvs
      have hend : (us ++ [(b, y)]).length = us.length + 1 := by simp
      rw [hend, insertIdx_behind]
      exact insertEnd_grown h
    · rw [if_neg (by omega), if_neg hn]
      exact hbegin

theorem position_le (n : Nat) (pos : Pos) : position n pos ≤ n := by
  cases pos <;> simp only [position] <;> (try split) <;> omega

theorem insert_holds (h : Holds L xs) (hlt : (xs.length : Int) < INT_MAX) (pos : Pos) :
    ∃ L', insert L e pos = .ok L' ∧
      Holds L' (xs.insertIdx (position xs.length pos) (L.heap.brk, e)) := by
  obtain ⟨L', hins, hg⟩ := insert_grown h e pos
  exact ⟨L', hins, h.of_grown hlt hg (List.length_insertIdx_of_le_length (position_le _ pos) ..)⟩

/-! ## 2. Where it should stand

The guards of `add` ask for one entry more than the walks need: with two entries there is a
middle, and with one there is an end, but both go to `insert_begin`. -/

/-- The entries of the ledger, from `head` on. -/
def Lists (L : Ledger) (es : List Priv) : Prop :=
  ∃ xs, Chain L.heap L.head xs none ∧ xs.map Prod.snd = es

/-- The index that `pos` names in a list of `n` entries. -/
def indexOf (n : Nat) : Pos → Nat
  | .MIDDLE => n / 2
  | .END => n
  | .BEGIN | .other => 0

/-- A call that returns `OK` has put one entry at its index, and counted it; one that does not
    has left the ledger as it was. -/
def AddsAtIndex (L : Ledger) (es : List Priv) (callocOk : Bool) (entry : Option Priv) (pos : Pos)
    (inp : List UInt8) : Prop :=
  ∀ r L' rest, add callocOk L entry pos inp = .ok (r, L', rest) →
    (r = OK → ∃ e, obtainEntry entry inp = .ok (OK, e, rest) ∧
      Lists L' (es.insertIdx (indexOf es.length pos) e) ∧ L'.entryTotal = es.length + 1) ∧
    (r ≠ OK → L' = L)

/-- The new entry, the caller's or one typed in, has a name or a number. -/
structure Obtains (callocOk : Bool) (entry : Option Priv) (inp : List UInt8) (e : Priv)
    (rest : List UInt8) : Prop where
  callocOk : callocOk = true
  entry : obtainEntry entry inp = .ok (OK, e, rest)
  named : unnamed e = false

/-- The list is one of those for which the guards of `add` are too narrow. -/
def Short (n : Nat) (pos : Pos) : Prop := pos = .MIDDLE ∧ n = 2 ∨ pos = .END ∧ n = 1
deriving Decidable

theorem position_eq_indexOf {n : Nat} {pos : Pos} (h : ¬ Short n pos) :
    position n pos = indexOf n pos := by
  unfold Short at h
  cases pos with
  | BEGIN => rfl
  | other => rfl
  | MIDDLE =>
    simp only [position, indexOf]
    split
    · rfl
    · have hn : n ≠ 2 := fun e => h (.inl ⟨rfl, e⟩)
      omega
  | END =>
    simp only [position, indexOf]
    split
    · rfl
    · have hn : n ≠ 1 := fun e => h (.inr ⟨rfl, e⟩)
      omega

/-- A short list has its new entry in front, and should have it behind the first one. -/
theorem Short.indices {n : Nat} {pos : Pos} (h : Short n pos) :
    position n pos = 0 ∧ indexOf n pos = 1 := by
  rcases h with ⟨rfl, rfl⟩ | ⟨rfl, rfl⟩
  · exact ⟨rfl, rfl⟩
  · exact ⟨rfl, rfl⟩

theorem insertIdx_zero_eq_one {α : Type} {es : List α} {e : α} (hne : es ≠ []) :
    es.insertIdx 0 e = es.insertIdx 1 e ↔ es.head? = some e := by
  cases es with
  | nil => exact absurd rfl hne
  | cons d es =>
    simp only [List.insertIdx_zero, List.insertIdx_succ_cons, List.cons.injEq, List.head?_cons,
      Option.some.injEq]
    constructor
    · rintro ⟨hed, -⟩
      exact hed.symm
    · rintro rfl
      simp

theorem processParam_ret (e : Priv) (off size : Nat) (dataType : TYPE) (inp : List UInt8) :
    Ends (processParam e off size dataType inp) (fun _ => True)
      fun (r, _, _) => r = OK ∨ r = ERR := by
  cases dataType with
  | STRING =>
    unfold processParam
    cases fgets size inp with
    | none => exact .inr rfl
    | some lr =>
      refine Ends.skip (put e off (lr.1 ++ [NUL])) fun e₁ => ?_
      split
      · exact .inr rfl
      · exact Ends.skip _ fun _ => .inl rfl
  | INT =>
    unfold processParam
    dsimp only
    split
    · exact .inr rfl
    · refine Ends.skip _ fun e₁ => ?_
      split
      · trivial
      · exact .inl rfl
  | _ => exact .inl rfl

theorem processParams_ret (fs : List (Field × TYPE)) (e : Priv) (inp : List UInt8) :
    Ends (processParams fs e inp) (fun _ => True) fun (r, _, _) => r = OK ∨ r = ERR := by
  induction fs generalizing e inp with
  | nil => exact .inl rfl
  | cons ft fs ih =>
    obtain ⟨f, t⟩ := ft
    rw [processParams]
    refine (processParam_ret e f.offset BUFSIZE t inp).bind ?_
    rintro ⟨r, e', rest⟩ hr
    show Ends (if r = ERR then _ else _) _ _
    split
    · exact .inr rfl
    · exact ih e' rest

theorem obtainEntry_ret (entry : Option Priv) (inp : List UInt8) :
    Ends (obtainEntry entry inp) (fun _ => True) fun (r, _, _) => r = OK ∨ r = ERR := by
  cases entry with
  | none => exact processParams_ret params _ inp
  | some e => exact .inl rfl

theorem add_of_obtains {callocOk : Bool} {entry : Option Priv} {inp rest : List UInt8}
    (h : Obtains callocOk entry inp e rest) (L : Ledger) (pos : Pos) :
    add callocOk L entry pos inp = insert L e pos >>= fun L' => .ok (OK, L', rest) := by
  rw [add, if_neg (by simp [h.callocOk]), bind_of_ok h.entry]
  dsimp only
  rw [if_neg (by decide), if_neg (by simp [h.named])]
  rfl

/-- A call that obtains no entry does not return `OK`, and keeps the ledger. -/
theorem add_refused {callocOk : Bool} {entry : Option Priv} {inp : List UInt8}
    (h : ∀ e rest, ¬ Obtains callocOk entry inp e rest) (L : Ledger) (pos : Pos) :
    Ends (add callocOk L entry pos inp) (fun _ => True) fun (r, L', _) => r = ERR ∧ L' = L := by
  unfold add
  split
  · exact ⟨rfl, rfl⟩
  · rename_i hcalloc
    have hret := obtainEntry_ret entry inp
    cases ho : obtainEntry entry inp with
    | error s => trivial
    | ok filled =>
      obtain ⟨r, e, rest⟩ := filled
      have hr : r = OK ∨ r = ERR := hret.of_eq_ok ho
      show Ends (if r = ERR then _ else _) _ _
      split
      · exact ⟨rfl, rfl⟩
      · rename_i hne
        have hok : r = OK := hr.resolve_right hne
        split
        · exact ⟨rfl, rfl⟩
        · rename_i hnamed
          subst hok
          exact absurd ⟨Bool.eq_true_of_not_eq_false hcalloc, ho, Bool.eq_false_of_not_eq_true hnamed⟩
            (h e rest)

/-- **`add` puts an entry at its index and counts it exactly when the counter has room and the
    list is not short**, or it is and begins with the same entry. -/
theorem add_at_index_iff (h : Holds L xs) (callocOk : Bool) (entry : Option Priv) (pos : Pos)
    (inp : List UInt8) :
    AddsAtIndex L (xs.map Prod.snd) callocOk entry pos inp ↔
      ∀ e rest, Obtains callocOk entry inp e rest →
        (xs.length : Int) < INT_MAX ∧
          (Short xs.length pos → (xs.map Prod.snd).head? = some e) := by
  have hlen : (xs.map Prod.snd).length = xs.length := List.length_map _
  constructor
  · intro hadds e rest ho
    obtain ⟨L', hins, hg⟩ := insert_grown h e pos
    have hadd := (add_of_obtains ho L pos).trans (bind_of_ok hins _)
    obtain ⟨e', he', ⟨ys, hys, hmap⟩, htotal⟩ := (hadds OK L' rest hadd).1 rfl
    cases ho.entry.symm.trans he'
    rw [hlen] at hmap htotal
    refine ⟨?_, fun hshort => ?_⟩
    · have hrange := inRange_wrap32 (L.entryTotal + 1)
      rw [← hg.total, htotal] at hrange
      exact Int.lt_of_add_one_le hrange.2
    · obtain ⟨hpos, hidx⟩ := hshort.indices
      have hne : xs.map Prod.snd ≠ [] := by
        rintro hnil
        have hzero : xs.length = 0 := by rw [← hlen, hnil, List.length_nil]
        rcases hshort with ⟨-, hn⟩ | ⟨-, hn⟩
        · omega
        · omega
      refine (insertIdx_zero_eq_one hne).mp ?_
      rw [← hidx, ← hmap, ← hg.chain.unique hys, hpos, List.map_insertIdx]
  · intro hcond r L' rest hadd
    by_cases hob : ∃ e rest', Obtains callocOk entry inp e rest'
    · obtain ⟨e, rest', ho⟩ := hob
      obtain ⟨L₁, hins, hg⟩ := insert_grown h e pos
      cases hadd.symm.trans ((add_of_obtains ho L pos).trans (bind_of_ok hins _))
      obtain ⟨hroom, hshort⟩ := hcond e rest ho
      have hholds := h.of_grown hroom hg (List.length_insertIdx_of_le_length (position_le _ pos) ..)
      refine ⟨fun _ => ⟨e, ho.entry, ⟨_, hg.chain, ?_⟩, ?_⟩, fun hr => absurd rfl hr⟩
      · rw [List.map_insertIdx, hlen]
        by_cases hs : Short xs.length pos
        · obtain ⟨hpos, hidx⟩ := hs.indices
          rw [hpos, hidx, insertIdx_zero_eq_one]
          · exact hshort hs
          · intro hnil
            rw [hnil] at hshort
            exact absurd (hshort hs) (by simp)
        · rw [position_eq_indexOf hs]
      · rw [hholds.total, List.length_insertIdx_of_le_length (position_le _ pos), hlen]
        rfl
    · have hends := add_refused (fun e rest ho => hob ⟨e, rest, ho⟩) L pos
      obtain ⟨hr, hL⟩ := hends.of_eq_ok hadd
      refine ⟨fun hok => ?_, fun _ => hL⟩
      rw [hok] at hr
      exact absurd hr (by decide)

theorem add_at_index_iff_end :
    Holds (twoCustomers (named 65) (named 66)) [(1, named 65), (0, named 66)] ∧
      AddsAtIndex (twoCustomers (named 65) (named 66)) [named 65, named 66] true
        (some (named 67)) .END [] :=
  ⟨holds_twoCustomers _ _, (add_at_index_iff (holds_twoCustomers _ _) true (some (named 67)) .END
    []).mpr fun _ _ _ => ⟨by decide, fun h => absurd h (by decide)⟩⟩

/-- The customer `B` is to go to the end of the list of `A`, and is put in front. -/
theorem end_put_in_front :
    Holds (insertBegin (initObj 0) (named 65)) [(0, named 65)] ∧
      ¬ AddsAtIndex (insertBegin (initObj 0) (named 65)) [named 65] true (some (named 66)) .END
        [] := by
  have h : Holds (insertBegin (initObj 0) (named 65)) [(0, named 65)] :=
    ⟨⟨rfl, none, rfl, rfl⟩, rfl, by decide⟩
  refine ⟨h, fun hadds => ?_⟩
  obtain ⟨e, he, ⟨ys, hys, hmap⟩, -⟩ := (hadds OK _ [] rfl).1 rfl
  cases he
  have hchain := (insertBegin_grown (e := named 66) h.chain).chain
  rw [← hchain.unique hys] at hmap
  exact absurd hmap (by decide)

end TaskLedger
end Labs
