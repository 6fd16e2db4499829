import Labs.TaskLedger.Add
import Labs.TaskLedger.LoadFrom

/-!
# The counter over whole runs

`entry_total` and the list are two representations of one number, changed by different functions
on several paths. `Good` says that they agree; it is `Holds` of some list. Each operation has one
lemma: from a ledger that is good, and inputs that do not make the operation leave its memory, it
ends with a good ledger or waits for input for ever (`add_ends`, `removeBy_ends`, `findBy_ends`,
`loadFrom_ends`). A run is then an induction over its calls.

`CallSound` is what a call needs, of its input and of the ledger it is called on:

* the lines typed and the values loaded end inside the entry they are stored in, and the counter
  has room;
* no match of a deletion by a field that is not unique stands behind another entry.

The run itself starts from `constructor` and `init_obj`, and there it needs one more thing: that
the memory `malloc` returned happens to be zero at `entry_total`.

## What a run needs

`Good` is what the walks of `add` rely on without saying so, so it has to hold before every call,
and each lemma of section 1 both uses it and gives it back. The lemmas have the form of `Ends`: a
call ends with a good ledger, or it waits for ever. There is no third case, in particular no
`useAfterFree` and no `NULL`.

A call that fails is no exception. `add` links nothing before it has everything, and `load_from`
keeps the records it has added when a later one is refused, all of them counted. So `call` gives the
ledger that is there, whatever was returned, and the run goes on with it.

The property is asked of the empty run as well, which has the ledger as `init_obj` leaves it. So the
result is an equivalence with one number in it, the `garbage` at `entry_total`: `constructor` calls
`malloc`, and nothing sets the counter before it is used.
-/

namespace Labs
namespace TaskLedger

open Lib

/-- `entry_total` is the number of nodes reachable from `head`. -/
def Good (L : Ledger) : Prop := ∃ xs, Holds L xs

variable {L : Ledger} {xs : List (Addr × Priv)}

/-! ## 1. One lemma for each operation -/

theorem insert_ends (h : Good L) (hlt : L.entryTotal < INT_MAX) (e : Priv) (pos : Pos) :
    Ends (insert L e pos) (fun _ => False)
      fun L' => Good L' ∧ L'.entryTotal = L.entryTotal + 1 := by
  obtain ⟨xs, hxs⟩ := h
  have hroom : (xs.length : Int) < INT_MAX := hxs.total ▸ hlt
  obtain ⟨L', hins, hL'⟩ := insert_holds (e := e) hxs hroom pos
  rw [hins]
  refine ⟨⟨_, hL'⟩, ?_⟩
  rw [hL'.total, hxs.total, List.length_insertIdx_of_le_length (position_le _ pos)]
  rfl

/-- What a call to `add` needs that gets memory for a node: room for one more, and lines that
    fit where they are typed. -/
structure AddSound (L : Ledger) (entry : Option Priv) (inp : List UInt8) : Prop where
  room : L.entryTotal < INT_MAX
  lines : entry = none → EntryFits inp

theorem add_ends {callocOk : Bool} {entry : Option Priv} {pos : Pos} {inp : List UInt8}
    (h : Good L) (hs : callocOk = true → AddSound L entry inp) :
    Ends (add callocOk L entry pos inp) (fun s => s = .hang ∧ entry = none)
      fun (_, L', _) => Good L' ∧ L'.entryTotal ≤ L.entryTotal + 1 := by
  have hsame : Good L ∧ L.entryTotal ≤ L.entryTotal + 1 := ⟨h, by omega⟩
  unfold add
  split
  · exact hsame
  · rename_i hcalloc
    have hs := hs (Bool.eq_true_of_not_eq_false hcalloc)
    have hfill : Ends (obtainEntry entry inp) (fun s => s = .hang ∧ entry = none)
        fun _ => True := by
      cases entry with
      | none =>
        exact (processEntry_ends (hs.lines rfl)).mono (fun _ hs => ⟨hs, rfl⟩) fun _ _ => trivial
      | some e => exact trivial
    refine hfill.bind fun (r, e, rest) _ => ?_
    show Ends (if r = ERR then _ else _) _ _
    split
    · exact hsame
    · split
      · exact hsame
      · have hins := insert_ends h hs.room e pos
        refine (hins.mono (fun _ hf => hf.elim) fun _ hL' => hL').bind fun L' hL' => ?_
        exact ⟨hL'.1, Int.le_of_eq hL'.2⟩

/-- What a call to `remove_by` needs. -/
structure RemoveSound (L : Ledger) (opt : Opt) (inp : List UInt8) : Prop where
  lines : KeyFits opt inp
  matchesFirst : NonUnique opt → ∀ xs, Chain L.heap L.head xs none →
    ∀ f key rest, opt.field = some f → readKey opt f inp = .ok (OK, key, rest) →
      MatchesFirst (cmp key · f) xs

theorem removeBy_ends {opt : Opt} {inp : List UInt8} (h : Good L) (hs : RemoveSound L opt inp) :
    Ends (removeBy L opt inp) (· = .hang) fun (_, L', _) => Good L' := by
  obtain ⟨xs, hxs⟩ := h
  have hfuel : xs.length < L.heap.brk + 1 := Nat.lt_succ_of_le hxs.chain.length_le_brk
  cases hf : opt.field with
  | none =>
    rw [removeBy, hf]
    exact ⟨xs, hxs⟩
  | some f =>
    have hends := readKey_ends hf hs.lines
    cases hread : readKey opt f inp with
    | error s =>
      rw [hread] at hends
      rw [removeBy_of_stop hf hread]
      exact hends
    | ok r =>
      obtain ⟨r, key, rest⟩ := r
      have hr : r = OK ∨ r = ERR := hends.of_eq_ok hread
      rcases hr with rfl | rfl
      · rw [removeBy_of_key hf hread]
        cases hu : opt.unique with
        | true =>
          obtain ⟨L', hL', hrun⟩ := removeLoop_unique (cmp key · f) hxs.chain hfuel
          rw [bind_of_ok hrun]
          exact ⟨_, hL' hxs⟩
        | false =>
          have hopt : NonUnique opt := ⟨by simp [hf], hu⟩
          obtain ⟨L', hL', hrun⟩ := removeLoop_matchesFirst none hxs.chain
            (hs.matchesFirst hopt xs hxs.chain f key rest hf hread) hfuel
          rw [bind_of_ok hrun]
          exact ⟨_, hL' hxs⟩
      · rw [removeBy_of_err hf hread]
        exact ⟨xs, hxs⟩

/-- The entries `find_by` reports: the first match, or all of them. -/
theorem findLoop_spec (unique : Bool) (hit : Priv → Bool) {h : Heap Priv} {p : Link} {fuel : Nat}
    (hc : Chain h p xs none) (hfuel : xs.length < fuel) :
    findLoop unique hit h fuel p = .ok (
      if unique then ((xs.map Prod.snd).find? hit).toList else (xs.map Prod.snd).filter hit) := by
  induction xs generalizing fuel p with
  | nil =>
    cases fuel with
    | zero => exact absurd hfuel (Nat.not_lt_zero _)
    | succ fuel =>
      have hnone : p = none := hc
      rw [hnone, findLoop]
      cases unique <;> rfl
  | cons e xs ih =>
    obtain ⟨a, x⟩ := e
    cases fuel with
    | zero => exact absurd hfuel (Nat.not_lt_zero _)
    | succ fuel =>
      obtain ⟨hp, next, ha, hrest⟩ := hc
      have hnext := ih hrest (Nat.lt_of_succ_lt_succ hfuel)
      subst hp
      rw [findLoop, bind_of_ok (Heap.load_live ha)]
      cases hx : hit x with
      | false =>
        rw [if_neg (by simp), hnext]
        simp [hx]
      | true =>
        rw [if_pos rfl]
        cases unique with
        | true => simp [hx]; rfl
        | false =>
          rw [if_neg (by simp), bind_of_ok hnext]
          simp [hx]; rfl

theorem findBy_ends {opt : Opt} {inp : List UInt8} (h : Good L) (hfit : KeyFits opt inp) :
    Ends (findBy L opt inp) (· = .hang) fun _ => True := by
  obtain ⟨xs, hxs⟩ := h
  have hfuel : xs.length < L.heap.brk + 1 := Nat.lt_succ_of_le hxs.chain.length_le_brk
  unfold findBy
  cases hf : opt.field with
  | none => exact trivial
  | some f =>
    refine (readKey_ends hf hfit).bind fun (r, key, rest) _ => ?_
    show Ends (if r = ERR then _ else _) _ _
    split
    · exact trivial
    · rw [bind_of_ok (findLoop_spec _ _ hxs.chain hfuel)]
      exact trivial

/-- Without memory, or without a name and a number, a record is not added. -/
theorem add_refuses (L : Ledger) (callocOk : Bool) (e : Priv) (pos : Pos) (inp : List UInt8)
    (h : callocOk = false ∨ unnamed e = true) :
    add callocOk L (some e) pos inp = .ok (ERR, L, inp) := by
  unfold add
  split
  · rfl
  · rename_i hc
    rcases h with h | h
    · exact absurd h hc
    · have hfill : obtainEntry (some e) inp = .ok (OK, e, inp) := rfl
      rw [bind_of_ok hfill]
      dsimp only
      rw [if_neg (by decide), if_pos h]
      rfl

theorem loadRecords_ends {callocNode : Nat → Bool} {buf : List UInt8} {ts : List Tok} {m i : Nat}
    (h : Good L) (hfit : RecordsFit callocNode buf ts m i)
    (hroom : L.entryTotal + m ≤ INT_MAX) :
    Ends (loadRecords callocNode buf ts m i L) (fun _ => False) fun (_, L') => Good L' := by
  induction m generalizing i L with
  | zero => exact h
  | succ m ih =>
    obtain ⟨hi, hrec⟩ := hfit
    rw [loadRecords, bind_of_ok (tokenAt_of_lt hi)]
    split
    · exact h
    · rename_i ht
      obtain ⟨hpairs, hnext⟩ := hrec (not_not.mp ht)
      have hends := loadPairs_ends hpairs
      cases hp : loadPairs buf ts (ts.getD i .zero).size (i + 1) (.zero _) with
      | error s =>
        rw [hp] at hends
        exact hends
      | ok r =>
        cases r with
        | none => exact h
        | some je =>
          obtain ⟨j, entry⟩ := je
          have hlt : L.entryTotal < INT_MAX := by
            push_cast at hroom
            omega
          have hadd : Ends (add (callocNode m) L (some entry) .BEGIN [])
              (fun s => s = .hang ∧ some entry = none) _ := add_ends h fun _ => ⟨hlt, nofun⟩
          show Ends (add (callocNode m) L (some entry) .BEGIN [] >>= _) _ _
          cases ha : add (callocNode m) L (some entry) .BEGIN [] with
          | error s =>
            rw [ha] at hadd
            exact absurd hadd.2 (by simp)
          | ok r =>
            obtain ⟨r, L', rest⟩ := r
            obtain ⟨hgood, hle⟩ := hadd.of_eq_ok ha
            show Ends (if r = ERR then _ else _) _ _
            split
            · exact hgood
            · rename_i hr
              refine ih hgood (hnext j entry hp ?_ ?_) ?_
              · by_contra hcalloc
                have href := add_refuses L (callocNode m) entry .BEGIN []
                  (.inl (Bool.eq_false_iff.mpr hcalloc))
                exact hr (congrArg Prod.fst (Except.ok.inj (ha.symm.trans href)))
              · by_contra hnamed
                have href := add_refuses L (callocNode m) entry .BEGIN []
                  (.inr (Bool.eq_true_of_not_eq_false hnamed))
                exact hr (congrArg Prod.fst (Except.ok.inj (ha.symm.trans href)))
              · push_cast at hroom
                omega

theorem loadDocument_ends {callocNode : Nat → Bool} {buf : List UInt8} {ts : List Tok}
    (h : Good L) (hfit : DocumentFits callocNode buf ts)
    (hroom : L.entryTotal + (ts.getD 2 .zero).size ≤ INT_MAX) :
    Ends (loadDocument callocNode buf ts L) (fun _ => False) fun (_, L') => Good L' := by
  rw [loadDocument, bind_of_ok (tokenAt_of_lt (by decide))]
  split
  · exact h
  · rename_i hobj
    obtain ⟨hkey, harr⟩ := hfit (not_not.mp hobj)
    rw [bind_of_ok (tokenAt_of_lt (by decide))]
    have hcmp := isEmployees_ends hkey
    rw [← bind_assoc]
    cases hfound : textOf buf (ts.getD 1 .zero) >>= isEmployees with
    | error s =>
      rw [hfound] at hcmp
      exact hcmp
    | ok found =>
      show Ends (if found = false then _ else _) _ _
      split
      · exact h
      · rename_i htrue
        rw [Bool.eq_true_of_not_eq_false htrue] at hfound
        rw [bind_of_ok (tokenAt_of_lt (by decide))]
        split
        · exact h
        · rename_i ht
          exact loadRecords_ends h (harr hfound (not_not.mp ht)) hroom

/-- What a call to `load_from` needs, if the file can be read. -/
def LoadSound (jsmn : List UInt8 → Parsed) (file : FileAnswers) (L : Ledger) : Prop :=
  ∀ filesize data, file.stat = some filesize → file.read = some data →
    let buf := bufOf filesize data
    let ts := (jsmn (buf.take filesize.toNat)).tokens
    DocumentFits file.callocNode buf ts ∧ L.entryTotal + (ts.getD 2 .zero).size ≤ INT_MAX

theorem loadFrom_ends {jsmn : List UInt8 → Parsed} {file : FileAnswers} (h : Good L)
    (hs : LoadSound jsmn file L) :
    Ends (loadFrom jsmn file L) (fun _ => False) fun (_, L', _) => Good L' := by
  rcases loadFrom_cases jsmn file L with ⟨-, fds, hload⟩ | ⟨-, -, fds, hload⟩ |
    ⟨filesize, fd, data, hreads, hload⟩
  · rw [hload]
    exact h
  · rw [hload]
    exact h
  · obtain ⟨hfit, hroom⟩ := hs filesize data hreads.stat hreads.read
    rw [hload]
    unfold parseAndLoad
    dsimp only
    split
    · exact h
    · refine (loadDocument_ends h hfit hroom).bind fun (ok, L') hL' => ?_
      cases ok with
      | true => exact hL'
      | false => exact hL'

/-! ## 2. Runs -/

inductive Call
  | add (callocOk : Bool) (entry : Option Priv) (pos : Pos) (inp : List UInt8)
  | removeBy (opt : Opt) (inp : List UInt8)
  | findBy (opt : Opt) (inp : List UInt8)
  | loadFrom (jsmn : List UInt8 → Parsed) (file : FileAnswers)

/-- The ledger after a call, whatever the call returned. -/
def call (L : Ledger) : Call → Except Stop Ledger
  | .add callocOk entry pos inp => do
    let (_, L', _) ← add callocOk L entry pos inp
    return L'
  | .removeBy opt inp => do
    let (_, L', _) ← removeBy L opt inp
    return L'
  | .findBy opt inp => do
    let _ ← findBy L opt inp
    return L
  | .loadFrom jsmn file => do
    let (_, L', _) ← loadFrom jsmn file L
    return L'

def calls : Ledger → List Call → Except Stop Ledger
  | L, [] => .ok L
  | L, c :: cs => do
    let L' ← call L c
    calls L' cs

def CallSound (L : Ledger) : Call → Prop
  | .add callocOk entry _ inp => callocOk = true → AddSound L entry inp
  | .removeBy opt inp => RemoveSound L opt inp
  | .findBy opt inp => KeyFits opt inp
  | .loadFrom jsmn file => LoadSound jsmn file L

/-- Every call of the run is sound on the ledger it is called on. -/
def RunSound : Ledger → List Call → Prop
  | _, [] => True
  | L, c :: cs => CallSound L c ∧ ∀ L', call L c = .ok L' → RunSound L' cs

theorem call_ends {c : Call} (h : Good L) (hs : CallSound L c) :
    Ends (call L c) (· = .hang) Good := by
  cases c with
  | add callocOk entry pos inp =>
    exact ((add_ends h hs).mono (fun _ hs => hs.1) fun _ hL' => hL'.1).bind fun _ hL' => hL'
  | removeBy opt inp => exact (removeBy_ends h hs).bind fun _ hL' => hL'
  | findBy opt inp => exact (findBy_ends h hs).bind fun _ _ => h
  | loadFrom jsmn file =>
    exact ((loadFrom_ends h hs).mono (fun _ hf => hf.elim) fun _ hL' => hL').bind fun _ hL' => hL'

theorem calls_end {cs : List Call} (h : Good L) (hs : RunSound L cs) :
    Ends (calls L cs) (· = .hang) Good := by
  induction cs generalizing L with
  | nil => exact h
  | cons c cs ih =>
    have hends := call_ends h hs.1
    cases hc : call L c with
    | error s =>
      rw [hc] at hends
      rw [calls, bind_of_error hc]
      exact hends
    | ok L' =>
      rw [calls, bind_of_ok hc]
      exact ih (hends.of_eq_ok hc) (hs.2 L' hc)

theorem good_initObj : Good (initObj 0) := ⟨[], rfl, rfl, by decide⟩

/-- **Over the runs whose calls are sound, the counter is the number of nodes and no walk meets
    a `NULL`, exactly when the object was zero where `init_obj` leaves it.** -/
theorem entry_total_counts_iff (garbage : Int) :
    (∀ cs, RunSound (initObj garbage) cs → Ends (calls (initObj garbage) cs) (· = .hang) Good) ↔
      garbage = 0 := by
  constructor
  · intro h
    obtain ⟨xs, hxs⟩ := h [] trivial
    have hnil : xs = [] := hxs.chain.unique rfl
    rw [hnil] at hxs
    exact hxs.total
  · rintro rfl cs hs
    exact calls_end good_initObj hs

/-- The object of a process whose memory was used before: the walk of `add` to the middle
    steps onto `NULL` with the first entry. -/
theorem garbage_counted :
    ¬ Good (initObj 5) ∧
      calls (initObj 5) [.add true (some (named 65)) .MIDDLE []] = .error .nullDeref := by
  refine ⟨fun ⟨xs, hxs⟩ => ?_, ?_⟩
  · have hnil : xs = [] := hxs.chain.unique rfl
    rw [hnil] at hxs
    exact absurd hxs.total (by decide)
  · rfl

end TaskLedger
end Labs
