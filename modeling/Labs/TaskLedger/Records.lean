import Labs.TaskLedger.ByKey

/-!
# What a load leaves behind

`load_from` adds a record as soon as its pairs have been read, before it looks at the next one.
`Loaded` is the loop over the array without the ledger: from token `i` on, of `m` more elements,
the records `es` are read, and then the loop ends well or at `fail`. The loop adds exactly `es`,
each in front of the ones before it (`loadRecords_iff`); so what a failing load leaves is the list
as it was, behind the records that were read before the failure (`load_from_failed`).

## The loop without the ledger

The result of reading a document does not depend on the ledger: no walk is made, and each record is
put in front. So the loop can be described by the tokens alone, as an inductive relation whose
constructors are the ways in which a turn can go: the array ends, an element is no object, a pair
fails, a record is refused, or a record is read and the rest follows. What the ledger becomes is a
fold over the records.

A relation and not a function, because there is more to say of one turn than its result: which
record is made of which tokens. The modules about what is accepted and about what is stored go
through it in the same way.

For a load that fails this gives what is left: an initial part of the records, in the order in which
they were read, the last one first in the list. Nothing takes them out again. `Atomic` would ask
that; a document whose second record is bad is enough to show that it is not so
(`first_record_stays`).
-/

namespace Labs
namespace TaskLedger

open Lib

/-! ## 1. The loop over the array -/

inductive Loaded (callocNode : Nat → Bool) (buf : List UInt8) (ts : List Tok) :
    Nat → Nat → List Priv → Bool → Prop
  | finished {i : Nat} : Loaded callocNode buf ts 0 i [] true
  /-- The next element is not an object. -/
  | left {m i : Nat} {t : Tok} (ht : tokenAt ts i = .ok t) (hobject : t.type ≠ .JSMN_OBJECT) :
      Loaded callocNode buf ts (m + 1) i [] true
  /-- A pair of the record is refused. -/
  | badPair {m i : Nat} {t : Tok} (ht : tokenAt ts i = .ok t) (hobject : t.type = .JSMN_OBJECT)
      (hpairs : loadPairs buf ts t.size (i + 1) (.zero _) = .ok none) :
      Loaded callocNode buf ts (m + 1) i [] false
  /-- The record is read, and `add` does not take it. -/
  | refused {m i j : Nat} {t : Tok} {e : Priv} (ht : tokenAt ts i = .ok t)
      (hobject : t.type = .JSMN_OBJECT)
      (hpairs : loadPairs buf ts t.size (i + 1) (.zero _) = .ok (some (j, e)))
      (hadd : callocNode m = false ∨ unnamed e = true) :
      Loaded callocNode buf ts (m + 1) i [] false
  | record {m i j : Nat} {t : Tok} {e : Priv} {es : List Priv} {ok : Bool}
      (ht : tokenAt ts i = .ok t) (hobject : t.type = .JSMN_OBJECT)
      (hpairs : loadPairs buf ts t.size (i + 1) (.zero _) = .ok (some (j, e)))
      (hcalloc : callocNode m = true) (hnamed : unnamed e = false)
      (hrest : Loaded callocNode buf ts m j es ok) :
      Loaded callocNode buf ts (m + 1) i (e :: es) ok

variable {callocNode : Nat → Bool} {buf : List UInt8} {ts : List Tok} {m i : Nat} {es : List Priv}
  {ok : Bool} {L L' : Ledger} {xs : List (Addr × Priv)}

/-- The ledger with the records `es` added, one after the other. -/
def withRecords (L : Ledger) (es : List Priv) : Ledger := es.foldl insertBegin L

theorem add_given (L : Ledger) {callocOk : Bool} {e : Priv} (hcalloc : callocOk = true)
    (hnamed : unnamed e = false) :
    add callocOk L (some e) .BEGIN [] = .ok (OK, insertBegin L e, []) := by
  subst hcalloc
  exact add_begin e hnamed

theorem add_given_refused (L : Ledger) {callocOk : Bool} {e : Priv}
    (h : callocOk = false ∨ unnamed e = true) :
    add callocOk L (some e) .BEGIN [] = .ok (ERR, L, []) := by
  rcases h with rfl | hnamed
  · rfl
  · cases callocOk with
    | false => rfl
    | true =>
      show (if unnamed e then _ else _) = _
      rw [if_pos hnamed]
      rfl

/-- **The loop adds the records that are read, and nothing else.** -/
theorem loadRecords_iff (L L' : Ledger) :
    loadRecords callocNode buf ts m i L = .ok (ok, L') ↔
      ∃ es, Loaded callocNode buf ts m i es ok ∧ L' = withRecords L es := by
  constructor
  · intro h
    induction m generalizing i L with
    | zero =>
      cases h
      exact ⟨[], .finished, rfl⟩
    | succ m ih =>
      rw [loadRecords] at h
      obtain ⟨t, ht, h⟩ := of_bind_eq_ok h
      by_cases hobject : t.type = .JSMN_OBJECT
      · rw [if_neg (not_not.mpr hobject)] at h
        obtain ⟨r, hpairs, h⟩ := of_bind_eq_ok h
        cases r with
        | none =>
          cases h
          exact ⟨[], .badPair ht hobject hpairs, rfl⟩
        | some je =>
          obtain ⟨j, e⟩ := je
          dsimp only at h
          by_cases hadd : callocNode m = false ∨ unnamed e = true
          · rw [bind_of_ok (add_given_refused L hadd)] at h
            cases h
            exact ⟨[], .refused ht hobject hpairs hadd, rfl⟩
          · simp only [not_or, Bool.not_eq_false, Bool.not_eq_true] at hadd
            rw [bind_of_ok (add_given L hadd.1 hadd.2)] at h
            obtain ⟨es, hes, hL'⟩ := ih (insertBegin L e) h
            exact ⟨e :: es, .record ht hobject hpairs hadd.1 hadd.2 hes, hL'⟩
      · rw [if_pos hobject] at h
        cases h
        exact ⟨[], .left ht hobject, rfl⟩
  · rintro ⟨es, h, rfl⟩
    induction h generalizing L with
    | finished => rfl
    | left ht hobject => rw [loadRecords, bind_of_ok ht, if_pos hobject]; rfl
    | badPair ht hobject hpairs =>
      rw [loadRecords, bind_of_ok ht, if_neg (not_not.mpr hobject), bind_of_ok hpairs]
      rfl
    | refused ht hobject hpairs hadd =>
      rw [loadRecords, bind_of_ok ht, if_neg (not_not.mpr hobject), bind_of_ok hpairs]
      dsimp only
      rw [bind_of_ok (add_given_refused L hadd)]
      rfl
    | record ht hobject hpairs hcalloc hnamed _ ih =>
      rw [loadRecords, bind_of_ok ht, if_neg (not_not.mpr hobject), bind_of_ok hpairs]
      dsimp only
      rw [bind_of_ok (add_given L hcalloc hnamed)]
      exact ih (insertBegin L _)

/-! ## 2. The ledger after it -/

theorem withRecords_chain (hc : Chain L.heap L.head xs none) (es : List Priv) :
    ∃ as, Chain (withRecords L es).heap (withRecords L es).head (as ++ xs) none ∧
      as.map Prod.snd = es.reverse := by
  induction es generalizing L xs with
  | nil => exact ⟨[], hc, rfl⟩
  | cons e es ih =>
    obtain ⟨as, hchain, has⟩ := ih (insertBegin_grown (e := e) hc).chain
    refine ⟨as ++ [(L.heap.brk, e)], ?_, ?_⟩
    · rw [List.append_assoc]
      exact hchain
    · simp [has]

theorem withRecords_total (h : InRange32 L.entryTotal) (es : List Priv) :
    (withRecords L es).entryTotal = wrap32 (L.entryTotal + es.length) := by
  induction es generalizing L with
  | nil =>
    rw [List.length_nil, Int.natCast_zero, Int.add_zero, wrap32_of_inRange h]
    rfl
  | cons e es ih =>
    have hstep := ih (L := insertBegin L e) (inRange_wrap32 _)
    have htotal : (insertBegin L e).entryTotal = wrap32 (L.entryTotal + 1) := rfl
    have hsum : L.entryTotal + ((e :: es).length : Nat) = L.entryTotal + 1 + es.length := by
      simp only [List.length_cons, Nat.cast_add, Nat.cast_one]
      omega
    rw [withRecords, List.foldl_cons, hsum]
    refine hstep.trans ?_
    rw [htotal]
    exact Int.bmod_add_bmod

/-! ## 3. The document -/

/-- An object, a key that passes for `Employees`, and an array. -/
structure HeadAccepted (buf : List UInt8) (ts : List Tok) : Prop where
  object : (ts.getD 0 .zero).type = .JSMN_OBJECT
  key : (textOf buf (ts.getD 1 .zero) >>= isEmployees) = .ok true
  array : (ts.getD 2 .zero).type = .JSMN_ARRAY

/-- The elements of the array. -/
def arraySize (ts : List Tok) : Nat := (ts.getD 2 .zero).size

theorem loadDocument_of_head (h : HeadAccepted buf ts) (callocNode : Nat → Bool) (L : Ledger) :
    loadDocument callocNode buf ts L = loadRecords callocNode buf ts (arraySize ts) 3 L := by
  rw [loadDocument, bind_of_ok (tokenAt_of_lt (by decide)), if_neg (not_not.mpr h.object),
    bind_of_ok (tokenAt_of_lt (by decide)), ← bind_assoc, bind_of_ok h.key,
    if_neg (by simp), bind_of_ok (tokenAt_of_lt (by decide)), if_neg (not_not.mpr h.array)]
  rfl

theorem loadDocument_of_not_head (h : ¬ HeadAccepted buf ts) (callocNode : Nat → Bool)
    (L : Ledger) :
    Ends (loadDocument callocNode buf ts L) (fun _ => True) fun r => r = (false, L) := by
  rw [loadDocument, bind_of_ok (tokenAt_of_lt (by decide))]
  split
  · rfl
  · rename_i hobject
    rw [bind_of_ok (tokenAt_of_lt (by decide)), ← bind_assoc]
    by_cases hkey : (textOf buf (ts.getD 1 .zero) >>= isEmployees) = .ok true
    · rw [bind_of_ok hkey, if_neg (by simp), bind_of_ok (tokenAt_of_lt (by decide))]
      split
      · rfl
      · rename_i harray
        exact absurd ⟨not_not.mp hobject, hkey, not_not.mp harray⟩ h
    · cases hfound : textOf buf (ts.getD 1 .zero) >>= isEmployees with
      | error s => trivial
      | ok found =>
        cases found with
        | false => rfl
        | true => exact absurd hfound hkey

/-- The records `es` of the file are read, and then the load fails: in front of the array, or at
    what stands behind them. -/
inductive FailsBehind (jsmn : List UInt8 → Parsed) (file : FileAnswers) : List Priv → Prop
  | unread (h : file.Unreadable) : FailsBehind jsmn file []
  | head {filesize fd : Int} {data : List UInt8} (hreads : file.Reads filesize fd data)
      (h : (parsedOf jsmn filesize data).ret < 1 ∨
        ¬ HeadAccepted (bufOf filesize data) (parsedOf jsmn filesize data).tokens) :
      FailsBehind jsmn file []
  | records {filesize fd : Int} {data : List UInt8} {es : List Priv}
      (hreads : file.Reads filesize fd data)
      (hret : 1 ≤ (parsedOf jsmn filesize data).ret)
      (hhead : HeadAccepted (bufOf filesize data) (parsedOf jsmn filesize data).tokens)
      (h : Loaded file.callocNode (bufOf filesize data) (parsedOf jsmn filesize data).tokens
        (arraySize (parsedOf jsmn filesize data).tokens) 3 es false) :
      FailsBehind jsmn file es

variable {jsmn : List UInt8 → Parsed} {file : FileAnswers} {ret : Int} {fds : List Int}

/-- `load_from` from `jsmn_parse` on, as a sequence of two calls. -/
theorem parseAndLoad_eq (jsmn : List UInt8 → Parsed) (callocNode : Nat → Bool) (filesize fd : Int)
    (data : List UInt8) (L : Ledger) :
    parseAndLoad jsmn callocNode filesize fd data L =
      if (parsedOf jsmn filesize data).ret < 1 then
        .ok (exitFail (parsedOf jsmn filesize data).ret fd L)
      else loadDocument callocNode (bufOf filesize data) (parsedOf jsmn filesize data).tokens L >>=
        fun r => if r.1 then .ok (exitOk fd r.2)
          else .ok (exitFail (parsedOf jsmn filesize data).ret fd r.2) := rfl

/-- A load that does not return `OK` has added the records it has read before. -/
theorem loadFrom_failed (h : loadFrom jsmn file L = .ok (ret, L', fds)) (hret : ret ≠ OK) :
    ∃ es, FailsBehind jsmn file es ∧ L' = withRecords L es := by
  rcases loadFrom_cases jsmn file L with ⟨hunread, fds', hload⟩ | ⟨-, -, fds', hload⟩ |
    ⟨filesize, fd, data, hreads, hload⟩
  · cases h.symm.trans hload
    exact ⟨[], .unread hunread, rfl⟩
  · cases h.symm.trans hload
    exact absurd rfl hret
  · rw [hload, parseAndLoad_eq] at h
    split at h
    · rename_i hparse
      cases h
      exact ⟨[], .head hreads (.inl hparse), rfl⟩
    · rename_i hparse
      by_cases hhead : HeadAccepted (bufOf filesize data) (parsedOf jsmn filesize data).tokens
      · rw [loadDocument_of_head hhead] at h
        obtain ⟨⟨ok, L₁⟩, hrec, h⟩ := of_bind_eq_ok h
        obtain ⟨es, hes, hL₁⟩ := (loadRecords_iff L L₁).mp hrec
        cases ok with
        | true =>
          cases h
          exact absurd rfl hret
        | false =>
          cases h
          exact ⟨es, .records hreads (not_lt.mp hparse) hhead hes, hL₁⟩
      · have hends := loadDocument_of_not_head hhead file.callocNode L
        obtain ⟨r, hdoc, h⟩ := of_bind_eq_ok h
        obtain rfl := hends.of_eq_ok hdoc
        cases h
        exact ⟨[], .head hreads (.inr hhead), rfl⟩

/-- What a load that fails leaves: the list as it was, behind the records `es` that were read,
    the last one first, and all of them counted. -/
structure LeftBehind (L L' : Ledger) (xs : List (Addr × Priv)) (es : List Priv) : Prop where
  list : ∃ as, Chain L'.heap L'.head (as ++ xs) none ∧ as.map Prod.snd = es.reverse
  total : L'.entryTotal = wrap32 (L.entryTotal + es.length)
  nothing : es = [] → L' = L

/-- **A load that fails keeps the list behind the records that it has read before.** -/
theorem load_from_failed (hc : Chain L.heap L.head xs none) (hint : InRange32 L.entryTotal)
    (h : loadFrom jsmn file L = .ok (ret, L', fds)) (hret : ret ≠ OK) :
    ∃ es, FailsBehind jsmn file es ∧ LeftBehind L L' xs es := by
  obtain ⟨es, hes, rfl⟩ := loadFrom_failed h hret
  refine ⟨es, hes, withRecords_chain hc es, withRecords_total hint es, ?_⟩
  rintro rfl
  rfl

/-! A document of two records, the second with a negative age. -/

def twoRecords : List UInt8 :=
  ascii "\x7b\"Employees\":[\x7b\"Name\":\"A\"\x7d,\x7b\"Age\":-1\x7d]\x7d"

def twoRecordsTokens : List Tok :=
  [tok .JSMN_OBJECT 0 39 1, tok .JSMN_STRING 2 9 1, tok .JSMN_ARRAY 13 25 2,
    tok .JSMN_OBJECT 14 12 1, tok .JSMN_STRING 16 4 1, tok .JSMN_STRING 23 1 0,
    tok .JSMN_OBJECT 27 10 1, tok .JSMN_STRING 29 3 1, tok .JSMN_PRIMITIVE 34 2 0]

/-- A tokenizer that knows one text. -/
def parsing (text : List UInt8) (ts : List Tok) (js : List UInt8) : Parsed :=
  if js = text then ⟨ts.length, ts⟩ else ⟨-2, []⟩

theorem parsing_self (text : List UInt8) (ts : List Tok) :
    parsing text ts text = ⟨ts.length, ts⟩ := if_pos rfl

/-- … and is given it. -/
theorem parsedOf_parsing (text : List UInt8) (ts : List Tok) :
    parsedOf (parsing text ts) text.length text = ⟨ts.length, ts⟩ := by
  rw [parsedOf, Int.toNat_natCast, (bufOf_text text).2, parsing_self]

def parseTwoRecords : List UInt8 → Parsed := parsing twoRecords twoRecordsTokens

theorem loadFrom_twoRecords :
    loadFrom parseTwoRecords (.holding twoRecords 3) (initObj 0) =
      .ok (9, insertBegin (initObj 0) (named 65), [3]) := by
  have hhead : HeadAccepted (twoRecords ++ [NUL]) twoRecordsTokens :=
    ⟨rfl, by decide +kernel, rfl⟩
  have hfirst : loadPairs (twoRecords ++ [NUL]) twoRecordsTokens 1 4 (.zero _) =
      .ok (some (6, named 65)) := by decide +kernel
  have hsecond : loadPairs (twoRecords ++ [NUL]) twoRecordsTokens 1 7 (.zero _) = .ok none := by
    decide +kernel
  have hloaded : Loaded (fun _ => true) (twoRecords ++ [NUL]) twoRecordsTokens 2 3 [named 65]
      false := .record rfl rfl hfirst rfl (by decide) (.badPair rfl rfl hsecond)
  have hdoc := (loadDocument_of_head hhead (fun _ => true) (initObj 0)).trans
    ((loadRecords_iff (initObj 0) _).mpr ⟨_, hloaded, rfl⟩)
  show parseAndLoad parseTwoRecords (fun _ => true) twoRecords.length 3 twoRecords (initObj 0) = _
  unfold parseAndLoad
  dsimp only
  rw [Int.toNat_natCast, (bufOf_text twoRecords).2, (bufOf_text twoRecords).1, parseTwoRecords,
    parsing_self]
  exact bind_of_ok hdoc _

theorem load_from_failed_two :
    ∃ es, FailsBehind parseTwoRecords (.holding twoRecords 3) es ∧
      LeftBehind (initObj 0) (insertBegin (initObj 0) (named 65)) [] es :=
  load_from_failed rfl (by decide) loadFrom_twoRecords (by decide)

/-- If the load does not return `OK`, the entries and the counter are as before. -/
def Atomic (jsmn : List UInt8 → Parsed) (file : FileAnswers) (L : Ledger) (es : List Priv) : Prop :=
  ∀ ret L' fds, loadFrom jsmn file L = .ok (ret, L', fds) → ret ≠ OK →
    Lists L' es ∧ L'.entryTotal = L.entryTotal

theorem first_record_stays :
    Lists (initObj 0) [] ∧ ¬ Atomic parseTwoRecords (.holding twoRecords 3) (initObj 0) [] := by
  refine ⟨⟨[], rfl, rfl⟩, fun h => ?_⟩
  have htotal := (h _ _ _ loadFrom_twoRecords (by decide)).2
  exact absurd htotal (by decide)

end TaskLedger
end Labs
